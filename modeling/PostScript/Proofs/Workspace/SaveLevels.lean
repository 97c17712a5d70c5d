import PostScript.Proofs.Name.Hints
import PostScript.Proofs.Workspace.Commands

/-
  This file shows that saving and restoring keep the table of
  names and the stack at one level, and what is left of the
  names that were made between a save and its restore. Saves
  and restores in between may have stamped such names anew,
  but only with a level above the one that is restored. All
  this holds as long as no save is made at the greatest level
  of 32 bits, where the count of levels begins anew.

  Key definitions include:
    * `Balanced`
    * `Workspace.SavesFit`
    * `Workspace.InStep`
    * `Workspace.Restores`

  Main results:
    * `Workspace.InStep.performAll`
    * `Balanced.leavesLevels`
    * `Workspace.restores_performAll`
    * `Workspace.restores_wrapped`
-/

namespace PostScript

------------------------------------------------------------
-- Stretches of Commands
------------------------------------------------------------

/-
  Commands that change a save level otherwise than by saving
  and restoring: by hand, or with the stack that has it.
-/
def Command.setsLevel : Command → Bool
  | .setLevel _ => true
  | .purge _ => true
  | .newStack _ => true
  | _ => false

/-
  Commands in which every save level that is entered is left
  again, and nothing else touches a level or collects names.
-/
inductive Balanced : List Command → Prop where
  | nil : Balanced []
  | quiet
      {c : Command}
      {rest : List Command}
      (hQuiet : c.isQuiet = true)
      (h : Balanced rest) :
      Balanced (c :: rest)
  | saved
      {inner rest : List Command}
      (hInner : Balanced inner)
      (h : Balanced rest) :
      Balanced (.save :: inner ++ .restore :: rest)

namespace Workspace

variable {w w' : Workspace}

/- Commands may be performed in two parts. -/
theorem performAll_append
    (w : Workspace)
    (cs cs' : List Command) :
    w.performAll (cs ++ cs') =
      (w.performAll cs).performAll cs' := by
  induction cs generalizing w with
  | nil => rfl
  | cons c cs ih => exact ih (w.perform c).2

/- There is a save level above that of the stack. -/
def HasRoom
    (w : Workspace) : Prop :=
  w.scope.stack.level < 0xffffffff

instance (w : Workspace) : Decidable w.HasRoom :=
  inferInstanceAs (Decidable (_ < _))

/-
  No save in a list of commands is made at the greatest level.
-/
def SavesFit :
    Workspace → List Command → Prop
  | _, [] => True
  | w, c :: cs =>
      (c = .save → w.HasRoom) ∧ SavesFit (w.perform c).2 cs

/- Of commands in two parts both have to fit. -/
theorem savesFit_append
    (w : Workspace)
    (cs cs' : List Command) :
    w.SavesFit (cs ++ cs') ↔
      w.SavesFit cs ∧ (w.performAll cs).SavesFit cs' := by
  induction cs generalizing w with
  | nil => exact (and_iff_right trivial).symm
  | cons c cs ih =>
      rw [List.cons_append, SavesFit, SavesFit, ih, and_assoc]
      rfl

/- The level that is entered is above the one before. -/
theorem HasRoom.lt_add_one
    (hRoom : w.HasRoom) :
    w.scope.stack.level < w.scope.stack.level + 1 := by
  unfold HasRoom at hRoom
  grind

/- It is in the one before. -/
theorem HasRoom.outerLevel_save
    (hRoom : w.HasRoom) :
    (w.perform .save).2.scope.stack.outerLevel =
      w.scope.stack.level := by
  have hSome : ¬ w.scope.stack.level + 1 = 0 := by
    unfold HasRoom at hRoom
    grind
  calc (w.perform .save).2.scope.stack.outerLevel
      = if w.scope.stack.level + 1 = 0 then 0
        else w.scope.stack.level + 1 - 1 := rfl
    _ = w.scope.stack.level := by
        rw [if_neg hSome, UInt32.add_sub_cancel]

------------------------------------------------------------
-- Quiet Commands
------------------------------------------------------------

/- A quiet command leaves the levels, also if it sets a hint. -/
theorem leavesLevels_ofCommand
    (h : w.Coherent)
    {c : Command}
    (hQuiet : c.isQuiet = true) :
    Goes LeavesLevels (fun _ _ => True)
      (Action.ofCommand c) w := by
  have hSteps : ∀ {α : Type} {V : α → Workspace → Prop}
      {x : Action α} {w : Workspace},
      Goes QuietSteps V x w → Goes LeavesLevels V x w :=
    fun hGoes => hGoes.mono (fun _ hQuiet => hQuiet.leavesLevels)
  by_cases hOrdinary : c.isOrdinary = true
  · exact hSteps (Action.ofCommand_quiet h hOrdinary hQuiet)
  · cases c with
    | newStack system => exact absurd hQuiet Bool.false_ne_true
    | setHint label slot =>
        refine Goes.bind (hSteps (Action.handle_goes label)) ?_
        intro n w₁ _ _
        apply Goes.get_bind
        refine Goes.bind (hSteps (Action.expect_goes _ _)) ?_
        intro id w₂ _ _
        refine Goes.bind (V := fun _ _ => True)
          ⟨⟨w₂.names.leavesLevels_setHint n (some id), rfl⟩,
            trivial⟩ ?_
        intro _ _ _ _
        exact Goes.bind (hSteps (Action.mention_goes n))
          (fun _ _ _ _ => Goes.pure trivial)
    | _ => exact absurd rfl hOrdinary

/- Giving up cells leaves the levels. -/
theorem leavesLevels_sweep
    (w : Workspace) :
    LeavesLevels w w.sweep :=
  ⟨Onward.refl w.names, rfl⟩

/- A quiet command leaves the levels. -/
theorem leavesLevels_perform
    (h : w.Coherent)
    {c : Command}
    (hQuiet : c.isQuiet = true) :
    LeavesLevels w (w.perform c).2 := by
  have hGoes := leavesLevels_ofCommand h hQuiet
  unfold perform
  cases hRun : Action.ofCommand c w with
  | ok v w' =>
      exact Onward.trans (hGoes.of_ok hRun).1
        (leavesLevels_sweep w')
  | error t w' =>
      exact Onward.trans (hGoes.of_error hRun).1
        (leavesLevels_sweep w')

------------------------------------------------------------
-- Being in Step
------------------------------------------------------------

/-
  The table and the stack are at one level, and no name is
  stamped above it.
-/
structure InStep
    (w : Workspace) : Prop where
  levels : w.names.level = w.scope.stack.level
  stamps : ∀ e ∈ w.names.entries, e.level ≤ w.names.level

namespace InStep

/- What leaves the levels leaves them in step. -/
theorem leavesLevels
    (h : w.InStep)
    (hLeaves : LeavesLevels w w') :
    w'.InStep := by
  have hLevel := hLeaves.names.level
  constructor
  case levels => rw [hLevel, hLeaves.stack, h.levels]
  case stamps =>
    intro e he
    rw [hLevel]
    rcases hLeaves.names.added e.name e.level
      (NameTable.stamped_entry he) with
      ⟨e', he', -, hSame⟩ | hSame
    · rw [← hSame]
      exact h.stamps e' he'
    · rw [hSame]
      exact UInt32.le_refl _

/- Saving raises both levels. -/
theorem save
    (h : w.InStep)
    (hRoom : w.HasRoom) :
    (w.perform .save).2.InStep := by
  constructor
  case levels => rfl
  case stamps =>
    intro e he
    have hLow := h.stamps e he
    rw [h.levels] at hLow
    exact UInt32.le_trans hLow
      (UInt32.le_of_lt hRoom.lt_add_one)

/- Restoring lowers both levels, from whatever they were. -/
theorem restore
    (w : Workspace) :
    (w.perform .restore).2.InStep :=
  ⟨rfl, fun _ he => NameTable.level_le_of_purge he⟩

/- Collecting names changes no level. -/
theorem collect
    (h : w.InStep) :
    (w.perform .collect).2.InStep := by
  constructor
  case levels => exact h.levels
  case stamps =>
    intro e he
    exact h.stamps e (NameTable.mem_entries_collect.mp he).1

/- The levels stay in step with every command. -/
theorem perform
    (h : w.InStep)
    (hw : w.Coherent)
    {c : Command}
    (hc : c.setsLevel = false)
    (hRoom : c = .save → w.HasRoom) :
    (w.perform c).2.InStep := by
  by_cases hQuiet : c.isQuiet = true
  · exact h.leavesLevels (leavesLevels_perform hw hQuiet)
  · cases c with
    | setLevel level => exact absurd hc.symm Bool.false_ne_true
    | purge level => exact absurd hc.symm Bool.false_ne_true
    | newStack system => exact absurd hc.symm Bool.false_ne_true
    | collect => exact h.collect
    | save => exact h.save (hRoom rfl)
    | restore => exact restore w
    | _ => exact absurd rfl hQuiet

/- So they do with any number of commands. -/
theorem performAll
    (h : w.InStep)
    (hw : w.Coherent)
    {cs : List Command}
    (hcs : ∀ c ∈ cs, c.setsLevel = false)
    (hFit : w.SavesFit cs) :
    (w.performAll cs).InStep := by
  induction cs generalizing w with
  | nil => exact h
  | cons c cs ih =>
      rcases List.forall_mem_cons.mp hcs with ⟨hc, hRest⟩
      exact ih (h.perform hw hc hFit.1) (hw.perform c) hRest
        hFit.2

/- A session begins in step. -/
theorem initial
    (settings : ScanSettings) :
    (Workspace.initial settings).InStep := by
  have hLists := NameTable.lists_initial
  unfold Workspace.initial
  constructor
  case levels =>
    dsimp only
    rw [hLists.level]
    rfl
  case stamps =>
    dsimp only
    intro e he
    rw [hLists.listed.mem_iff] at he
    rcases List.mem_map.mp he with ⟨x, -, rfl⟩
    exact UInt32.zero_le

end InStep

------------------------------------------------------------
-- Names That Are Needed
------------------------------------------------------------

/-
  Something refers to a name, or the cell that it was last
  found in is alive.
-/
def Needs
    (w : Workspace)
    (n : Name) : Prop :=
  n ∈ w.rootNames ∨
    ∃ slot,
      w.names.hint n = some slot ∧
        w.scope.heap.isLive slot = true

/- A name whose number is referenced is referenced. -/
theorem Coherent.mem_of_refers
    (h : w.Coherent)
    {n : Name}
    (hn : w.names.Holds n)
    (hRefers : w.refers n = true) :
    n ∈ w.rootNames := by
  unfold refers rootIds at hRefers
  rw [Std.HashSet.contains_ofList,
    List.contains_iff_mem] at hRefers
  rcases List.mem_map.mp hRefers with ⟨m, hm, hId⟩
  have hSame : m = n :=
    h.names.wellFormed.eq_of_is (h.holds_root hm) hn
      ((Name.is_iff m n).mpr hId)
  rw [← hSame]
  exact hm

/-
  An entry that is left when the level falls is as it was, or
  it was above the level and its name was needed.
-/
theorem Coherent.needs_of_purge
    (h : w.Coherent)
    {level : UInt32}
    {e : NameEntry}
    (he :
      e ∈ (w.names.purge w.refers w.scope.heap.isLive
        level).entries) :
    (e ∈ w.names.entries ∧ e.level ≤ level) ∨
      (e.level = level ∧ w.Needs e.name) := by
  have hTable := h.names.wellFormed
  rcases NameTable.mem_entries_purge.mp he with
    ⟨e', he', hEntry⟩
  rcases NameTable.purgeEntry_cases hEntry with
    ⟨hLow, rfl⟩ | ⟨hHigh, rfl, hSystem | hRefers | hHint⟩
  · exact .inl ⟨he', hLow⟩
  · -- system names are below every level
    rw [hTable.level_of_system he' hSystem] at hHigh
    exact absurd hHigh UInt32.not_lt_zero
  · exact .inr ⟨rfl,
      .inl (h.mem_of_refers ⟨e', he', rfl⟩ hRefers)⟩
  · cases hFound : e'.hint with
    | none =>
        rw [hFound] at hHint
        contradiction
    | some slot =>
        rw [hFound] at hHint
        refine .inr ⟨rfl, .inr ⟨slot, ?_, hHint⟩⟩
        rw [hTable.hint_name he', hFound]

------------------------------------------------------------
-- Balanced Stretches
------------------------------------------------------------

section Restoring

variable (h : w.InStep)
variable (hRoom : w.HasRoom)
variable (hInner : LeavesLevels (w.perform .save).2 w')

include h hRoom hInner

/- A restore falls to the level before its save. -/
theorem level_restored :
    w'.scope.stack.outerLevel = w.names.level := by
  rw [DictStack.outerLevel, hInner.stack, h.levels]
  exact hRoom.outerLevel_save

/-
  An entry that is left by a restore was there before its save
  or has been stamped anew, because its name was needed.
-/
theorem entry_restored
    (hw' : w'.Coherent)
    {e : NameEntry}
    (he : e ∈ (w'.perform .restore).2.names.entries) :
    w.names.Stamped e.name e.level ∨
      (e.level = w.names.level ∧ w'.Needs e.name) := by
  rcases hw'.needs_of_purge he with ⟨he', hLow⟩ | hNeeded
  · rw [level_restored h hRoom hInner] at hLow
    rcases hInner.names.added _ _
      (NameTable.stamped_entry he') with hOld | hNew
    · exact .inl hOld
    · -- a name that was made after the save is above
      have hSaved : e.level = w.scope.stack.level + 1 := hNew
      rw [hSaved, h.levels] at hLow
      exact absurd hRoom.lt_add_one (UInt32.not_lt.mpr hLow)
  · rw [level_restored h hRoom hInner] at hNeeded
    exact .inr hNeeded

/-
  If what follows a save leaves the levels that it led to, the
  restore leads back to the levels before the save.
-/
theorem leavesLevels_restore
    (hw' : w'.Coherent) :
    LeavesLevels w (w'.perform .restore).2 := by
  have hFall := level_restored h hRoom hInner
  constructor
  case stack => exact hFall.trans h.levels
  case names =>
    constructor
    case level => exact hFall
    case kept =>
      rintro n level ⟨e, he, rfl, rfl⟩
      have hKept : w'.names.Stamped e.name e.level :=
        hInner.names.kept _ _ (NameTable.stamped_entry he)
      apply hKept.purge
      rw [hFall]
      exact h.stamps e he
    case added =>
      rintro n level ⟨e, he, rfl, rfl⟩
      exact (entry_restored h hRoom hInner hw' he).imp_right
        And.left

end Restoring

end Workspace

/- A balanced stretch leaves the levels. -/
theorem Balanced.leavesLevels
    {cs : List Command}
    (h : Balanced cs)
    {w : Workspace}
    (hw : w.Coherent)
    (hStep : w.InStep)
    (hFit : w.SavesFit cs) :
    Workspace.LeavesLevels w (w.performAll cs) := by
  induction h generalizing w with
  | nil => exact Onward.refl w
  | @quiet c rest hQuiet _ ih =>
      have hFirst := Workspace.leavesLevels_perform hw hQuiet
      exact Onward.trans hFirst
        (ih (hw.perform c) (hStep.leavesLevels hFirst) hFit.2)
  | @saved inner rest _ _ ihInner ihRest =>
      rcases (w.savesFit_append _ _).mp hFit with
        ⟨⟨hRoom, hFitInner⟩, -, hFitRest⟩
      have hInner := ihInner (hw.perform .save)
        (hStep.save (hRoom rfl)) hFitInner
      have hLast := (hw.perform .save).performAll inner
      have hSaved :=
        Workspace.leavesLevels_restore hStep (hRoom rfl) hInner
          hLast
      rw [Workspace.performAll_append]
      exact Onward.trans hSaved
        (ihRest (hLast.perform .restore)
          (hStep.leavesLevels hSaved) hFitRest)

------------------------------------------------------------
-- Restoring
------------------------------------------------------------

namespace Workspace

/-
  What is restored after a save, given the workspace before
  the save, the one that the restore finds and the one that it
  leaves. All names that were there are there with their
  stamps. Of the others only those are left that were needed,
  and they are stamped with the level that is restored.
-/
structure Restores
    (w during w' : Workspace) : Prop where
  tableLevel : w'.names.level = w.names.level
  stackLevel : w'.scope.stack.level = w.scope.stack.level
  found :
    ∀ bytes n, w.names.lookup bytes = some n →
      w'.names.lookup bytes = some n
  kept :
    ∀ n level, w.names.Stamped n level →
      w'.names.Stamped n level
  added :
    ∀ e ∈ w'.names.entries, ¬ w.names.Holds e.name →
      e.level = w.names.level ∧ during.Needs e.name

/- A save, a balanced stretch and a restore. -/
theorem InStep.restores
    (h : w.InStep)
    (hw : w.Coherent)
    {inner : List Command}
    (hInner : Balanced inner)
    (hFit : w.SavesFit (.save :: inner)) :
    Restores w (w.performAll (.save :: inner))
      (w.performAll (.save :: inner ++ [.restore])) := by
  have hRoom : w.HasRoom := hFit.1 rfl
  have hDuring := hw.performAll (.save :: inner)
  have hSaved := hInner.leavesLevels (hw.perform .save)
    (h.save hRoom) hFit.2
  have hRestored :=
    leavesLevels_restore h hRoom hSaved hDuring
  rw [performAll_append]
  constructor
  case tableLevel => exact hRestored.names.level
  case stackLevel => exact hRestored.stack
  case found =>
    intro bytes n hLookup
    have hTable := (hDuring.perform .restore).names.wellFormed
    rcases NameTable.holds_of_lookup hLookup with
      ⟨⟨e, he, rfl⟩, hBytes⟩
    have hKept := hRestored.names.kept _ _
      (NameTable.stamped_entry he)
    exact (hTable.lookup_eq_some_iff bytes e.name).mpr
      ⟨hKept.holds, hBytes⟩
  case kept => exact hRestored.names.kept
  case added =>
    intro e he hNew
    rcases entry_restored h hRoom hSaved hDuring he with
      hOld | hNeeded
    · exact absurd hOld.holds hNew
    · exact hNeeded

/-
  Say that a session has led to a table and a stack that are
  in step, and that from there on levels change by saving and
  restoring alone, with no save at the greatest level. Then
  they stay in step, and a save, a balanced stretch and a
  restore may follow at any time: they lead back to the level
  before the save, to all names that were there and, of the
  names that were added, to those that the restore found
  needed.
-/
theorem restores_performAll
    (settings : ScanSettings)
    (before cs : List Command)
    (hStart :
      ((initial settings).performAll before).InStep)
    (hLevels : ∀ c ∈ cs, c.setsLevel = false)
    (hFit :
      ((initial settings).performAll before).SavesFit cs)
    {w : Workspace}
    (hRun :
      w = ((initial settings).performAll
        before).performAll cs) :
    w.InStep ∧
      ∀ inner, Balanced inner → w.SavesFit (.save :: inner) →
        Restores w (w.performAll (.save :: inner))
          (w.performAll (.save :: inner ++ [.restore])) := by
  have hBefore :=
    (coherent_initial settings).performAll before
  have hw : w.Coherent := by
    rw [hRun]
    exact hBefore.performAll cs
  have h : w.InStep := by
    rw [hRun]
    exact hStart.performAll hBefore hLevels hFit
  exact ⟨h, fun inner hInner hSaves =>
    h.restores hw hInner hSaves⟩

/-
  A name that is made and kept between a save and its restore,
  with another save and restore behind it.
-/
theorem restores_performAll_kept :
    ∃ w inner,
      w = (initial {}).performAll [.save] ∧
        inner = [.intern (Bytes.ofText "a") (some "h"),
          .save, .restore] ∧
        w.InStep ∧
        Restores w (w.performAll (.save :: inner))
          (w.performAll (.save :: inner ++ [.restore])) := by
  have hInner :
      Balanced [.intern (Bytes.ofText "a") (some "h"),
        .save, .restore] :=
    .quiet rfl (.saved .nil .nil)
  have hFirst : (initial {}).SavesFit [.save] :=
    ⟨fun _ => by decide, trivial⟩
  have hTwice :
      ((initial {}).performAll [.save, .save]).Coherent :=
    (coherent_initial {}).performAll _
  have hRoom :
      (((initial {}).performAll [.save, .save]).perform
        (.intern (Bytes.ofText "a") (some "h"))).2.HasRoom := by
    rw [HasRoom, (leavesLevels_perform hTwice rfl).stack]
    decide
  have hFit :
      ((initial {}).performAll [.save]).SavesFit
        [.save, .intern (Bytes.ofText "a") (some "h"),
          .save, .restore] :=
    ⟨fun _ => by decide, nofun, fun _ => hRoom, nofun, trivial⟩
  rcases restores_performAll {} [] [.save] (.initial {})
    (by decide) hFirst rfl with ⟨hStep, hRestores⟩
  exact ⟨_, _, rfl, rfl, hStep, hRestores _ hInner hFit⟩

------------------------------------------------------------
-- The Greatest Level
------------------------------------------------------------

/- So many saves from the start lead to this level. -/
theorem performAll_saves
    (settings : ScanSettings)
    {n : Nat}
    (hn : n ≤ 0xffffffff) :
    let w :=
      (initial settings).performAll (List.replicate n .save)
    w.InStep ∧ w.scope.stack.level = UInt32.ofNat n := by
  induction n with
  | zero => exact ⟨.initial settings, rfl⟩
  | succ n ih =>
      rcases ih (Nat.le_of_succ_le hn) with ⟨hStep, hLevel⟩
      have hRoom :
          ((initial settings).performAll
            (List.replicate n .save)).HasRoom := by
        rw [HasRoom, hLevel, UInt32.lt_iff_toNat_lt,
          UInt32.toNat_ofNat']
        exact Nat.lt_of_le_of_lt (Nat.mod_le _ _) hn
      dsimp only
      rw [List.replicate_succ', performAll_append]
      refine ⟨hStep.save hRoom, ?_⟩
      rw [UInt32.ofNat_add, ← hLevel]
      rfl

/-
  A save at the greatest level leads to level zero, where the
  restore does not lead back from. A stretch in a run restores
  the level that it begins at, and not that of the whole run.
-/
theorem restores_wrapped :
    ∃ w saves,
      saves = List.replicate 0xffffffff Command.save ∧
        w = (initial {}).performAll saves ∧
        (∀ c ∈ saves, c.setsLevel = false) ∧
        w.InStep ∧
        w.scope.stack.level = 0xffffffff ∧
        (w.performAll [.save, .restore]).scope.stack.level = 0 ∧
        ¬ Restores w (w.performAll [.save])
          (w.performAll [.save, .restore]) ∧
        ((initial {}).performAll
          [.save, .save, .restore]).scope.stack.level = 1 := by
  rcases performAll_saves {} (Nat.le_refl 0xffffffff) with
    ⟨hStep, hLevel⟩
  generalize hSaves :
    List.replicate 0xffffffff Command.save = saves at hStep hLevel
  generalize hRun : (initial {}).performAll saves = w
    at hStep hLevel
  have hEntered :
      (w.perform .save).2.scope.stack.level = 0 := by
    calc (w.perform .save).2.scope.stack.level
        = w.scope.stack.level + 1 := rfl
      _ = 0 := by
          rw [hLevel]
          decide
  have hLeft :
      (w.performAll [.save, .restore]).scope.stack.level = 0 := by
    calc (w.performAll [.save, .restore]).scope.stack.level
        = (w.perform .save).2.scope.stack.outerLevel := rfl
      _ = 0 := by rw [DictStack.outerLevel, if_pos hEntered]
  refine ⟨w, saves, rfl, hRun.symm, ?_, hStep, hLevel, hLeft,
    ?_, rfl⟩
  · rw [← hSaves]
    intro c hc
    rw [List.eq_of_mem_replicate hc]
    rfl
  · intro hRestores
    have hBack := hRestores.stackLevel
    rw [hLeft, hLevel] at hBack
    revert hBack
    decide

end Workspace

end PostScript
