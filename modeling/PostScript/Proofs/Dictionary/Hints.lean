import PostScript.Proofs.Dictionary.Cells
import PostScript.Proofs.Name.Hints

/-
  This file shows when following a hint gives what search
  gives: if the cell is still in use, it is the one that the
  system dictionary binds the name to, and no dictionary above
  binds the name.

  Key definitions include:
    * `Scope.Bottom`
    * `NameEntry.Faithful`
    * `Scope.Faithful`

  Main results:
    * `Scope.find_cases`
    * `Scope.Faithful.load_eq`
    * `Scope.Faithful.following`
-/

namespace PostScript

------------------------------------------------------------
-- Search
------------------------------------------------------------

namespace Scope

/- Search ends in the system dictionary. -/
theorem search_eq
    (s : Scope)
    (n : Name) :
    s.search n =
      ((findAbove s.stack n).or
        (s.stack.system.find? n)).bind s.heap.read? := by
  unfold search findAbove DictStack.frames
  have hFrames :
      s.stack.pushed ++ [s.stack.user, s.stack.system] =
        (s.stack.pushed ++ [s.stack.user]) ++
          [s.stack.system] := by
    rw [List.append_assoc]
    rfl
  rw [hFrames, List.findSome?_append]
  simp

/- A name is not found above if no dictionary binds it. -/
theorem findAbove_eq_none
    {s : DictStack}
    {n : Name} :
    findAbove s n = none ↔
      (∀ d ∈ s.pushed, d.find? n = none) ∧
        s.user.find? n = none := by
  unfold findAbove
  rw [List.findSome?_eq_none_iff]
  simp [or_imp, forall_and]

end Scope

------------------------------------------------------------
-- Faithful Hints
------------------------------------------------------------

/-
  A name is bound at the bottom alone, to the given cell.
-/
def Scope.Bottom
    (s : Scope)
    (n : Name)
    (slot : SlotId) : Prop :=
  s.stack.system.find? n = some slot ∧
    findAbove s.stack n = none

/-
  A hint that may be followed. If its cell is still in use,
  the name is bound to it at the bottom alone.
-/
def NameEntry.Faithful
    (s : Scope)
    (e : NameEntry) : Prop :=
  ∀ slot, e.hint = some slot →
    slot.index < s.heap.next ∧
      (s.heap.isLive slot = true → s.Bottom e.name slot)

/- A table all of whose hints may be followed. -/
def Scope.Faithful
    (t : NameTable)
    (s : Scope) : Prop :=
  ∀ e ∈ t.entries, e.Faithful s

/-
  Hints may still be followed at a later time if no new ones
  were set and all names that have one stay bound where they
  are.
-/
theorem Scope.Faithful.following
    {t t' : NameTable}
    {s s' : Scope}
    (h : s.Faithful t)
    (hHeap : s.heap.Follows s'.heap)
    (hEntries :
      ∀ e ∈ t'.entries, ∀ slot, e.hint = some slot →
        e ∈ t.entries ∧
          (s.Bottom e.name slot → s'.Bottom e.name slot)) :
    s'.Faithful t' := by
  intro e he slot hHint
  rcases hEntries e he slot hHint with ⟨heOld, hBottom⟩
  rcases h e heOld slot hHint with ⟨hMade, hLive⟩
  refine ⟨Nat.lt_of_lt_of_le hMade hHeap.next, ?_⟩
  intro hLive'
  exact hBottom (hLive (hHeap.live slot hMade hLive'))

------------------------------------------------------------
-- Following Hints
------------------------------------------------------------

namespace Scope

/-
  What a look-up comes to: nothing is found; or a value is
  found and the hint stays; or the value is found at the
  bottom, which is the new hint.
-/
theorem find_cases
    {s : Scope}
    {hint : Option SlotId}
    {n : Name}
    (hHint :
      ∀ slot, hint = some slot →
        s.heap.isLive slot = true → s.Bottom n slot) :
    (s.find hint n = none ∧ s.search n = none) ∨
    (∃ v, s.find hint n = some (v, hint) ∧
      s.search n = some v) ∨
    (∃ v slot,
      s.find hint n = some (v, some slot) ∧
        s.search n = some v ∧ s.Bottom n slot ∧
        s.heap.isLive slot = true) := by
  unfold find
  cases hFollow : hint.bind s.heap.read? with
  | some v =>
      rcases Option.bind_eq_some_iff.mp hFollow with
        ⟨slot, hSlot, hValue⟩
      have hLive : s.heap.isLive slot = true := by
        unfold Heap.isLive
        rw [hValue]
        rfl
      rcases hHint slot hSlot hLive with ⟨hSystem, hAbove⟩
      refine .inr (.inl ⟨v, rfl, ?_⟩)
      rw [search_eq, hAbove, hSystem]
      exact hValue
  | none =>
      rw [search_eq]
      cases hAbove : findAbove s.stack n with
      | some slot =>
          cases hValue : s.heap.read? slot with
          | none => exact .inl (by simp [hValue])
          | some v =>
              exact .inr (.inl ⟨v, by simp [hValue]⟩)
      | none =>
          cases hSystem : s.stack.system.find? n with
          | none => exact .inl (by simp)
          | some slot =>
              cases hValue : s.heap.read? slot with
              | none => exact .inl (by simp [hValue])
              | some v =>
                  refine .inr (.inr ⟨v, slot, ?_⟩)
                  have hLive : s.heap.isLive slot = true := by
                    unfold Heap.isLive
                    rw [hValue]
                    rfl
                  exact ⟨by simp [hValue], by simp [hValue],
                    ⟨hSystem, hAbove⟩, hLive⟩

namespace Faithful

variable {t : NameTable}
variable {s : Scope}

/- What the hint of a name in the table comes to. -/
theorem bottom_of_hint
    (h : s.Faithful t)
    (hTable : t.WellFormed)
    {n : Name}
    (hn : t.Holds n)
    {slot : SlotId}
    (hHint : t.hint n = some slot)
    (hLive : s.heap.isLive slot = true) :
    s.Bottom n slot := by
  rcases hn with ⟨e, he, rfl⟩
  rw [hTable.hint_name he] at hHint
  exact (h e he slot hHint).2 hLive

/-
  Where all hints may be followed, a look-up gives what search
  gives. At most the name itself then remembers another cell,
  which is the one that the system dictionary binds it to.
-/
theorem load_eq
    (h : s.Faithful t)
    (hTable : t.WellFormed)
    {n : Name}
    (hn : t.Holds n) :
    ∃ hint,
      t.load s n = (s.search n, t.rehint n hint) ∧
        (hint = t.hint n ∨
          ∃ slot, hint = some slot ∧ s.Bottom n slot ∧
            s.heap.isLive slot = true) := by
  have hEnvironment :
      Environment.find s (t.hint n) n = s.find (t.hint n) n :=
    rfl
  unfold NameTable.load
  rw [hEnvironment]
  rcases find_cases
      (fun slot => h.bottom_of_hint hTable hn) with
    ⟨hFind, hSearch⟩ | ⟨v, hFind, hSearch⟩ |
      ⟨v, slot, hFind, hSearch, hBottom, hLive⟩
  · refine ⟨t.hint n, ?_, .inl rfl⟩
    rw [hFind, hSearch, hTable.rehint_hint hn]
  · refine ⟨t.hint n, ?_, .inl rfl⟩
    rw [hFind, hSearch, ← hTable.setHint_eq hn]
  · refine ⟨some slot, ?_,
      .inr ⟨slot, rfl, hBottom, hLive⟩⟩
    rw [hFind, hSearch, ← hTable.setHint_eq hn]

end Faithful

end Scope

end PostScript
