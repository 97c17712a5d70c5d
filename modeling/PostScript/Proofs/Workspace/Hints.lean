import PostScript.Proofs.Dictionary.Hints
import PostScript.Proofs.Workspace.Commands

/-
  This file shows that hints may be followed at any time: from
  a stack on which no name has a hint, no step leads to a hint
  that leads elsewhere than search does.

  Main results:
    * `Workspace.Coherent.faithful_step`
    * `Workspace.Coherent.faithful_steps`
    * `Workspace.load_eq_search`
-/

namespace PostScript

------------------------------------------------------------
-- Tables
------------------------------------------------------------

namespace NameTable

/- What still has a hint after purging has not changed. -/
theorem mem_entries_of_purge
    {t : NameTable}
    {referenced : Name → Bool}
    {alive : SlotId → Bool}
    {level : UInt32}
    {e : NameEntry}
    (he : e ∈ (t.purge referenced alive level).entries)
    {slot : SlotId}
    (hHint : e.hint = some slot) :
    e ∈ t.entries := by
  rcases mem_entries_purge.mp he with ⟨e', he', hEntry⟩
  rcases purgeEntry_cases hEntry with
    ⟨-, rfl⟩ | ⟨-, rfl, -⟩
  · exact he'
  · contradiction

/- New names have no hint. -/
theorem mem_entries_internWithin
    {t : NameTable}
    {limit : Nat}
    {bytes : Bytes}
    {e : NameEntry}
    (he : e ∈ (t.internWithin limit bytes).2.entries)
    {slot : SlotId}
    (hHint : e.hint = some slot) :
    e ∈ t.entries := by
  rcases t.internWithin_cases limit bytes with
    ⟨-, h⟩ | ⟨_, -, -, h⟩ | ⟨-, -, h⟩
  · rw [h] at he
    exact he
  · rw [h] at he
    exact he
  · rw [h] at he
    rcases (t.mem_entries_link _ e).mp he with rfl | he
    · contradiction
    · exact he

end NameTable

------------------------------------------------------------
-- Reading
------------------------------------------------------------

/- Looking a name up leaves hints that may be followed. -/
theorem Scope.Faithful.lookUp
    {t : NameTable}
    {s : Scope}
    (h : s.Faithful t)
    (hTable : t.WellFormed)
    (hNumbered : s.heap.Numbered)
    {n : Name}
    (hn : t.Holds n) :
    s.Faithful (t.load s n).2 := by
  rcases h.load_eq hTable hn with ⟨hint, hLoad, hHint⟩
  rw [hLoad]
  intro e he
  rw [NameTable.entries_rehint] at he
  rcases List.mem_map.mp he with ⟨e, heOld, rfl⟩
  split
  next hName =>
    have hSame : e.name = n :=
      hTable.eq_of_is ⟨e, heOld, rfl⟩ hn hName
    intro slot hSlot
    change hint = some slot at hSlot
    rcases hHint with hHint | ⟨slot', hHint, hBottom, hLive⟩
    · rw [hHint, ← hSame, hTable.hint_name heOld] at hSlot
      exact h e heOld slot hSlot
    · rw [hHint, Option.some.injEq] at hSlot
      subst hSlot
      rcases (Heap.isLive_iff s.heap slot').mp hLive with
        ⟨c, hc, rfl⟩
      refine ⟨hNumbered c hc, fun _ => ?_⟩
      change s.Bottom e.name c.1
      rw [hSame]
      exact hBottom
  next => exact h e heOld

/- Reading leaves hints that may be followed. -/
theorem Reads.faithful
    {t t' : NameTable}
    {s s' : Scope}
    (hReads : Reads t s t' s')
    (hTable : t.Reachable)
    (hNumbered : s.heap.Numbered)
    (h : s.Faithful t) :
    s'.Faithful t' := by
  induction hReads with
  | refl => exact h
  | intern limit bytes _ ih =>
      exact ih.following (.refl _)
        (fun e he slot hHint =>
          ⟨NameTable.mem_entries_internWithin he hHint, id⟩)
  | lookUp hn hReads ih =>
      have hWell :=
        (Reads.reachable hReads hTable).wellFormed
      refine ih.lookUp hWell ?_ hn
      rw [hReads.heap_eq]
      exact hNumbered
  | comment text _ ih =>
      exact ih.following (.refl _)
        (fun e he slot _ => ⟨he, id⟩)

------------------------------------------------------------
-- Steps
------------------------------------------------------------

/- A key that is no key of a dictionary is not found. -/
theorem Dictionary.find?_eq_none
    {d : Dictionary}
    {n : Name}
    (h : ∀ key ∈ d.keys, n.is key = false) :
    d.find? n = none := by
  unfold find?
  rw [Option.map_eq_none_iff, List.find?_eq_none]
  intro e he hName
  have hOther := h e.1 (List.mem_map_of_mem he)
  rw [Name.is_iff] at hName
  rw [← Bool.not_eq_true, Name.is_iff] at hOther
  exact hOther hName.symm

namespace Workspace

namespace Coherent

variable {w w' : Workspace}

/- Binding a name leaves hints that may be followed. -/
theorem faithful_define
    (h : w.Coherent)
    (hFaithful : w.scope.Faithful w.names)
    {n : Name}
    (hn : w.names.Holds n)
    (o : Object) :
    (w.scope.define w.names n o).1.Faithful
      (w.scope.define w.names n o).2 := by
  have hTable := h.names.wellFormed
  -- the name itself has no hint any more
  have hEntries :
      ∀ e ∈ (w.names.setHint n none).entries,
        ∀ slot, e.hint = some slot →
          e ∈ w.names.entries ∧ n.is e.name = false := by
    intro e he slot hHint
    rcases hTable.mem_entries_forget [n]
      (by simpa using hn) he hHint with ⟨heOld, hOther⟩
    refine ⟨heOld, ?_⟩
    have hName := hOther n (List.mem_singleton_self n)
    rw [← Bool.not_eq_true, Name.is_iff] at hName ⊢
    exact fun hSame => hName hSame.symm
  unfold Scope.define
  dsimp only
  cases hPushed : w.scope.stack.pushed with
  | nil =>
      refine hFaithful.following (.insert _ n o _) ?_
      intro e he slot hHint
      rcases hEntries e he slot hHint with ⟨heOld, hOther⟩
      refine ⟨heOld, ?_⟩
      rintro ⟨hSystem, hAbove⟩
      refine ⟨hSystem, ?_⟩
      rw [Scope.findAbove_eq_none] at hAbove ⊢
      dsimp only
      rw [Dictionary.find?_insert_of_ne _ hOther]
      exact ⟨hPushed ▸ hAbove.1, hAbove.2⟩
  | cons d ds =>
      refine hFaithful.following (.insert _ n o _) ?_
      intro e he slot hHint
      rcases hEntries e he slot hHint with ⟨heOld, hOther⟩
      refine ⟨heOld, ?_⟩
      rintro ⟨hSystem, hAbove⟩
      refine ⟨hSystem, ?_⟩
      rw [Scope.findAbove_eq_none, hPushed,
        List.forall_mem_cons] at hAbove
      rw [Scope.findAbove_eq_none]
      dsimp only
      rw [List.forall_mem_cons,
        Dictionary.find?_insert_of_ne _ hOther]
      exact hAbove

/- Hints may be followed after every step. -/
theorem faithful_step
    (h : w.Coherent)
    (hFaithful : w.scope.Faithful w.names)
    (hStep : Step w w') :
    w'.scope.Faithful w'.names := by
  have hTable := h.names.wellFormed
  cases hStep with
  | read hReads =>
      exact hReads.faithful h.names h.numbered hFaithful
  | forgetHint n =>
      refine hFaithful.following (.refl _) ?_
      intro e he slot hHint
      rcases NameTable.mem_entries_setHint he with
        he | ⟨e', -, -, rfl⟩
      · exact ⟨he, id⟩
      · contradiction
  | setLevel level =>
      exact hFaithful.following (.refl _)
        (fun e he slot _ => ⟨he, id⟩)
  | purge level =>
      refine hFaithful.following (.refl _) ?_
      intro e he slot hHint
      exact ⟨NameTable.mem_entries_of_purge he hHint, id⟩
  | collect =>
      refine hFaithful.following (.refl _) ?_
      intro e he slot hHint
      exact ⟨(NameTable.mem_entries_collect.mp he).1, id⟩
  | handles s _ | objects s _ | dicts s _ | slots s
  | sources s | settings s => exact hFaithful
  | write slot _ =>
      exact hFaithful.following (.write _ slot _)
        (fun e he slot _ => ⟨he, id⟩)
  | allocate _ =>
      exact hFaithful.following (.allocate _ _)
        (fun e he slot _ => ⟨he, id⟩)
  | insert label _ _ _ =>
      exact hFaithful.following (.insert _ _ _ _)
        (fun e he slot _ => ⟨he, id⟩)
  | @push d hd =>
      refine hFaithful.following (.refl _) ?_
      intro e he slot hHint
      rcases hTable.mem_entries_forget d.keys
        (h.keys d (List.mem_append_left _ hd)) he hHint with
        ⟨heOld, hOther⟩
      refine ⟨heOld, ?_⟩
      rintro ⟨hSystem, hAbove⟩
      refine ⟨hSystem, ?_⟩
      rw [Scope.findAbove_eq_none] at hAbove ⊢
      exact ⟨List.forall_mem_cons.mpr
        ⟨Dictionary.find?_eq_none hOther, hAbove.1⟩,
        hAbove.2⟩
  | pop =>
      refine hFaithful.following (.refl _) ?_
      intro e he slot _
      refine ⟨he, ?_⟩
      unfold DictStack.pop
      split
      · exact id
      next d ds hPushed =>
        rintro ⟨hSystem, hAbove⟩
        refine ⟨hSystem, ?_⟩
        rw [Scope.findAbove_eq_none] at hAbove ⊢
        rw [hPushed, List.forall_mem_cons] at hAbove
        exact ⟨hAbove.1.2, hAbove.2⟩
  | define hn _ => exact h.faithful_define hFaithful hn _
  | defineSystem _ _ =>
      refine hFaithful.following (.insert _ _ _ _) ?_
      intro e he slot _
      refine ⟨he, ?_⟩
      rintro ⟨hSystem, hAbove⟩
      exact ⟨Dictionary.find?_insert_of_some _ hSystem _ _,
        hAbove⟩
  | circumstances vm level comments =>
      exact hFaithful.following (.refl _)
        (fun e he slot _ => ⟨he, id⟩)
  | sweep wanted =>
      exact hFaithful.following (.keep _ wanted)
        (fun e he slot _ => ⟨he, id⟩)

/- Hints may be followed after any number of steps. -/
theorem faithful_steps
    (h : w.Coherent)
    (hFaithful : w.scope.Faithful w.names)
    (hSteps : Steps w w') :
    w'.scope.Faithful w'.names := by
  induction hSteps with
  | refl => exact hFaithful
  | tail hFirst hStep ih =>
      exact (h.steps hFirst).faithful_step ih hStep

end Coherent

------------------------------------------------------------
-- Sessions
------------------------------------------------------------

/-
  Say that no name has a hint, which is so where a new stack
  begins, and that no hint is set by hand from there on. Then
  to look a name up gives what search from the innermost
  dictionary outwards gives, and nothing changes but the cell
  that the name remembers. If it remembers another cell, this
  is the one that the bottom binds it to.
-/
theorem load_eq_search
    (settings : ScanSettings)
    (before cs : List Command)
    (hHints :
      ∀ e ∈ ((initial settings).performAll
        before).names.entries, e.hint = none)
    (hOrdinary : ∀ c ∈ cs, c.isOrdinary = true)
    {w : Workspace}
    (hRun :
      w = ((initial settings).performAll before).performAll cs)
    {n : Name}
    (hn : w.names.Holds n) :
    ∃ hint,
      w.names.load w.scope n =
          (w.scope.search n, w.names.rehint n hint) ∧
        (hint = w.names.hint n ∨
          ∃ slot, hint = some slot ∧ w.scope.Bottom n slot ∧
            w.scope.heap.isLive slot = true) := by
  have hStart :=
    (coherent_initial settings).performAll before
  have hBegin :
      ((initial settings).performAll before).scope.Faithful
        ((initial settings).performAll before).names := by
    intro e he slot hHint
    rw [hHints e he] at hHint
    contradiction
  have hSteps := steps_performAll hStart hOrdinary
  rw [← hRun] at hSteps
  exact (hStart.faithful_steps hBegin hSteps).load_eq
    (hStart.steps hSteps).names.wellFormed hn

/-
  A system name that is bound at the bottom, looked up, and
  then bound in a dictionary that is pushed.
-/
theorem load_eq_search_abs :
    ∃ w hint, ∃ n : Name,
      w = (initial {}).performAll
        [.defineSystem (.bytes (Bytes.ofText "abs"))
            (.number (.integer 1) {}),
          .load (.bytes (Bytes.ofText "abs")),
          .newDict "d" none,
          .insert "d" (.bytes (Bytes.ofText "abs"))
            (.number (.integer 2) {}),
          .pushDict "d"] ∧
        n = ⟨0, Bytes.ofText "abs", some 0⟩ ∧
        w.names.load w.scope n =
            (w.scope.search n, w.names.rehint n hint) ∧
          (hint = w.names.hint n ∨
            ∃ slot, hint = some slot ∧ w.scope.Bottom n slot ∧
              w.scope.heap.isLive slot = true) := by
  have hHints :
      ∀ e ∈ ((initial {}).performAll []).names.entries,
        e.hint = none := by
    unfold performAll initial
    dsimp only
    exact fun e he => NameTable.hint_initial he
  rcases load_eq_search {} []
      [.defineSystem (.bytes (Bytes.ofText "abs"))
          (.number (.integer 1) {}),
        .load (.bytes (Bytes.ofText "abs")),
        .newDict "d" none,
        .insert "d" (.bytes (Bytes.ofText "abs"))
          (.number (.integer 2) {}),
        .pushDict "d"]
      hHints (by decide) rfl
      ((coherent_initial {}).performAll
        _).names.wellFormed.holds_abs with ⟨hint, hLoad⟩
  refine ⟨_, hint, _, ?_, rfl, hLoad⟩
  rw [performAll.eq_1]

end Workspace

end PostScript
