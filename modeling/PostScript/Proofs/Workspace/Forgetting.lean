import PostScript.Proofs.Name.Forgetting
import PostScript.Proofs.Name.Hints
import PostScript.Proofs.Workspace.Commands

/-
  This file shows what is forgotten when the save level of a
  table falls and when names are collected, for every table
  that can be reached and whatever is referenced. In a session
  the answers tell the number of names that went, and nothing
  but the table changes.

  Key definitions include:
    * `Workspace.withNames`
    * `Workspace.AnswersPurge`
    * `Workspace.AnswersCollect`

  Main results:
    * `Workspace.sweep_performAll`
    * `Workspace.purge_sifts`
    * `Workspace.collect_sifts`
-/

namespace PostScript

namespace Workspace

open NameTable

------------------------------------------------------------
-- Swept Sessions
------------------------------------------------------------

/- The same workspace with another table. -/
def withNames
    (w : Workspace)
    (names : NameTable) : Workspace :=
  { w with names := names }

/- To give up cells a second time changes nothing. -/
theorem sweep_sweep
    (w : Workspace) :
    w.sweep.sweep = w.sweep := by
  have hKeep :
      ∀ (h : Heap) (wanted : SlotId → Bool),
        (h.keep wanted).keep wanted = h.keep wanted := by
    intro h wanted
    simp [Heap.keep, List.filter_filter]
  have hWanted : w.sweep.wantedSlots = w.wantedSlots := rfl
  have hScope :
      w.sweep.sweep.scope.heap = w.sweep.scope.heap := by
    change Heap.keep _ (Heap.keep _ _) = Heap.keep _ _
    rw [hWanted, hKeep]
  calc w.sweep.sweep
      = { w.sweep with scope :=
          ⟨w.sweep.scope.stack, w.sweep.sweep.scope.heap⟩ } :=
        rfl
    _ = w.sweep := by rw [hScope]

/- A session never keeps cells that nothing holds. -/
theorem sweep_performAll
    (settings : ScanSettings)
    (cs : List Command) :
    ((initial settings).performAll cs).sweep =
      (initial settings).performAll cs := by
  have hAll :
      ∀ w : Workspace, w.sweep = w →
        (w.performAll cs).sweep = w.performAll cs := by
    induction cs with
    | nil => exact fun _ hSwept => hSwept
    | cons c cs ih =>
        intro w _
        apply ih
        unfold perform
        cases Action.ofCommand c w with
        | ok v w' => exact w'.sweep_sweep
        | error e w' => exact w'.sweep_sweep
  have hInitial :
      (initial settings).sweep = initial settings := by
    unfold initial
    generalize NameTable.initial = t
    rfl
  exact hAll _ hInitial

/- The cells in use do not depend on the table. -/
theorem sweep_withNames
    {w : Workspace}
    (hSwept : w.sweep = w)
    (names : NameTable) :
    (w.withNames names).sweep = w.withNames names := by
  calc (w.withNames names).sweep
      = w.sweep.withNames names := rfl
    _ = w.withNames names := by rw [hSwept]

------------------------------------------------------------
-- Answers
------------------------------------------------------------

/- The table after the level of a session has fallen. -/
def purgedNames
    (w : Workspace)
    (level : UInt32) : NameTable :=
  w.names.purge w.refers w.scope.heap.isLive level

/- The table after the names of a session were collected. -/
def collectedNames
    (w : Workspace) : NameTable :=
  w.names.collect w.refers

/-
  To let the level fall changes the table alone. The answer is
  the number of names that are forgotten, with the size and
  the level that are left. A second time nothing happens.
-/
structure AnswersPurge
    (w : Workspace)
    (level : UInt32) : Prop where
  first :
    w.perform (.purge level) =
      (.ok (.purged
          (w.names.entries.countP (fun e =>
            Forgets w.refers w.scope.heap.isLive level e))
          (w.purgedNames level).size level),
        w.withNames (w.purgedNames level))
  again :
    (w.withNames (w.purgedNames level)).perform
        (.purge level) =
      (.ok (.purged 0 (w.purgedNames level).size level),
        w.withNames (w.purgedNames level))

/-
  To collect names changes the table alone. The answer is the
  number of names that were unused, with the size that is
  left. A second time nothing happens, and the level may fall
  before or afterwards.
-/
structure AnswersCollect
    (w : Workspace) : Prop where
  first :
    w.perform .collect =
      (.ok (.collected
          (w.names.entries.countP (fun e =>
            Unused w.refers e))
          w.collectedNames.size),
        w.withNames w.collectedNames)
  again :
    (w.withNames w.collectedNames).perform .collect =
      (.ok (.collected 0 w.collectedNames.size),
        w.withNames w.collectedNames)
  swap :
    ∀ level,
      w.performAll [.collect, .purge level] =
        w.performAll [.purge level, .collect]

section Answers

variable {w : Workspace}
variable (hSwept : w.sweep = w)

include hSwept

/- What is done when the level is to fall. -/
theorem perform_purge
    (level : UInt32) :
    w.perform (.purge level) =
      (.ok (.purged
          (w.names.size - (w.purgedNames level).size)
          (w.purgedNames level).size level),
        w.withNames (w.purgedNames level)) := by
  rw [← sweep_withNames hSwept]
  rfl

/- What is done when names are to be collected. -/
theorem perform_collect :
    w.perform .collect =
      (.ok (.collected
          (w.names.size - w.collectedNames.size)
          w.collectedNames.size),
        w.withNames w.collectedNames) := by
  rw [← sweep_withNames hSwept]
  rfl

/- The number that is told is that of the forgotten names. -/
theorem answersPurge
    (hTable : w.names.WellFormed)
    (level : UInt32) :
    w.AnswersPurge level := by
  have hPurged :=
    hTable.purged w.refers w.scope.heap.isLive level
  have hCount :
      w.names.size - (w.purgedNames level).size =
        w.names.entries.countP (fun e =>
          Forgets w.refers w.scope.heap.isLive level e) := by
    have hSize := hPurged.size
    unfold purgedNames
    omega
  have hAgain :
      (w.withNames (w.purgedNames level)).purgedNames level =
        w.purgedNames level :=
    purge_again _ _ _ _ _ _
  constructor
  case first => rw [perform_purge hSwept, hCount]
  case again =>
    rw [perform_purge (sweep_withNames hSwept _), hAgain]
    simp only [withNames, Nat.sub_self]

/- So is the number that is told of the unused names. -/
theorem answersCollect
    (hTable : w.names.WellFormed) :
    w.AnswersCollect := by
  have hCollected := hTable.collected w.refers
  have hCount :
      w.names.size - w.collectedNames.size =
        w.names.entries.countP (fun e =>
          Unused w.refers e) := by
    have hSize := hCollected.size
    unfold collectedNames
    omega
  have hAgain :
      (w.withNames w.collectedNames).collectedNames =
        w.collectedNames :=
    collect_again _ _
  constructor
  case first => rw [perform_collect hSwept, hCount]
  case again =>
    rw [perform_collect (sweep_withNames hSwept _), hAgain]
    simp only [withNames, Nat.sub_self]
  case swap =>
    intro level
    simp only [performAll, perform_purge, perform_collect,
      hSwept, sweep_withNames]
    -- references and cells are the same for both tables
    have hSwap :=
      hTable.collect_purge w.refers w.scope.heap.isLive level
    exact congrArg w.withNames hSwap

end Answers

------------------------------------------------------------
-- Forgetting
------------------------------------------------------------

/-
  When the level of a table falls, just those names from above
  are forgotten that nothing refers to and that remember no
  cell in use. The others stay in their order, those from
  above under the new level and without a hint. To do it again
  changes nothing, whatever is referenced by then. In a
  session the answer tells how many names were forgotten.
-/
theorem purge_sifts
    {t : NameTable}
    (h : t.Reachable)
    (referenced : Name → Bool)
    (alive : SlotId → Bool)
    (level : UInt32) :
    Purged referenced alive level t
        (t.purge referenced alive level) ∧
      (∀ referenced' alive',
        (t.purge referenced alive level).purge referenced'
            alive' level =
          t.purge referenced alive level) ∧
      ∀ settings cs,
        ((initial settings).performAll cs).AnswersPurge
          level := by
  refine ⟨h.wellFormed.purged referenced alive level, ?_, ?_⟩
  · intro referenced' alive'
    exact purge_again t referenced referenced' alive alive'
      level
  · intro settings cs
    have hRun := (coherent_initial settings).performAll cs
    exact answersPurge (sweep_performAll settings cs)
      hRun.names.wellFormed level

/- No system name is empty. -/
theorem lookup_initial_empty :
    NameTable.initial.lookup #[] = none := by
  have hBytes :
      ∀ s ∈ systemNameList, Bytes.ofText s ≠ #[] := by
    decide +kernel
  apply lookup_eq_none
  intro e he
  rw [lists_initial.listed.mem_iff] at he
  rcases List.mem_map.mp he with ⟨⟨bytes, i⟩, hi, rfl⟩
  have hMem := List.fst_mem_of_mem_zipIdx hi
  unfold systemNames at hMem
  rcases List.mem_map.mp hMem with ⟨s, hs, rfl⟩
  exact hBytes s hs

/-
  A name that is made at a higher level and remembers a cell
  may be added to any table that lacks it.
-/
theorem exists_hinted
    {t : NameTable}
    (h : t.Reachable)
    (hNew : t.lookup #[] = none) :
    ∃ (t' : NameTable) (n : Name) (slot : SlotId),
      t'.Reachable ∧ n.systemIndex = none ∧
        ⟨n, 1, some slot⟩ ∈ t'.entries := by
  let n : Name := ⟨t.nextId, #[], none⟩
  have hMade :
      ((t.setLevel 1).internWithin 0 #[]).2 =
        (t.setLevel 1).link ⟨n, 1, none⟩ := by
    have hLookup : (t.setLevel 1).lookup #[] = none := hNew
    unfold internWithin
    rw [hLookup]
    rfl
  have hReachable :
      ((t.setLevel 1).link ⟨n, 1, none⟩).Reachable := by
    rw [← hMade]
    exact .internWithin 0 #[] (.setLevel 1 h)
  have hEntry :
      ⟨n, 1, none⟩ ∈
        ((t.setLevel 1).link ⟨n, 1, none⟩).entries :=
    (mem_entries_link _ _ _).mpr (.inl rfl)
  refine ⟨_, n, ⟨0⟩, .setHint n (some ⟨0⟩) hReachable, rfl,
    ?_⟩
  rw [hReachable.wellFormed.setHint_eq ⟨_, hEntry, rfl⟩,
    entries_rehint]
  refine List.mem_map.mpr ⟨_, hEntry, ?_⟩
  exact if_pos ((Name.is_iff n n).mpr rfl)

/-
  A name that nothing refers to stays for its cell, or goes if
  the cell is not in use.
-/
theorem purge_sifts_hinted :
    ∃ (t : NameTable) (n : Name),
      t.Reachable ∧
        ⟨n, 0, none⟩ ∈
          (t.purge (fun _ => false) (fun _ => true)
            0).entries ∧
        (t.purge (fun _ => false) (fun _ => false) 0).lookup
          n.bytes = none := by
  rcases exists_hinted .initial lookup_initial_empty with
    ⟨t, n, slot, hTable, -, hEntry⟩
  have hAlive :=
    (purge_sifts hTable (fun _ => false) (fun _ => true) 0).1
  have hDead :=
    (purge_sifts hTable (fun _ => false) (fun _ => false) 0).1
  refine ⟨t, n, hTable, ?_, ?_⟩
  · apply hAlive.stamped _ hEntry Nat.zero_lt_one
    rintro ⟨-, -, hNone⟩
    contradiction
  · exact (hDead.forgotten _ hEntry
      ⟨Nat.zero_lt_one, rfl, rfl⟩).2

/-
  When names are collected, just those go that have no system
  number and that nothing refers to, though they may remember
  a cell. The others stay as they are, in their order. To do
  it again changes nothing, and the level of the table may
  fall before or afterwards, with the same outcome. In a
  session the answer tells how many names went.
-/
theorem collect_sifts
    {t : NameTable}
    (h : t.Reachable)
    (referenced : Name → Bool) :
    Collected referenced t (t.collect referenced) ∧
      (t.collect referenced).collect referenced =
        t.collect referenced ∧
      (∀ alive level,
        (t.collect referenced).purge referenced alive level =
          (t.purge referenced alive level).collect
            referenced) ∧
      ∀ settings cs,
        ((initial settings).performAll cs).AnswersCollect := by
  refine ⟨h.wellFormed.collected referenced,
    collect_again t referenced, ?_, ?_⟩
  · exact h.wellFormed.collect_purge referenced
  · intro settings cs
    have hRun := (coherent_initial settings).performAll cs
    exact answersCollect (sweep_performAll settings cs)
      hRun.names.wellFormed

/- A name goes although it remembers a cell in use. -/
theorem collect_sifts_hinted :
    ∃ (t : NameTable) (n : Name) (slot : SlotId),
      t.Reachable ∧ ⟨n, 1, some slot⟩ ∈ t.entries ∧
        (t.collect (fun _ => false)).lookup n.bytes = none ∧
        (t.collect (fun _ => false)).purge (fun _ => false)
            (fun _ => true) 0 =
          (t.purge (fun _ => false) (fun _ => true) 0).collect
            (fun _ => false) := by
  rcases exists_hinted .initial lookup_initial_empty with
    ⟨t, n, slot, hTable, hNumber, hEntry⟩
  rcases collect_sifts hTable (fun _ => false) with
    ⟨hCollected, -, hSwap, -⟩
  have hUnused : Unused (fun _ => false) ⟨n, 1, some slot⟩ :=
    ⟨hNumber, rfl⟩
  exact ⟨t, n, slot, hTable, hEntry,
    (hCollected.collected _ hEntry hUnused).2, hSwap _ 0⟩

end Workspace

end PostScript
