import PostScript.Proofs.Name.WellFormed
import PostScript.Proofs.Run

/-
  This file follows the save levels that names are stamped
  with. Making names stamps the new ones with the level of the
  table and leaves the others alone; when the level falls, the
  names from above that stay are stamped with the new level.

  Key definitions include:
    * `NameTable.Stamped`
    * `NameTable.LeavesLevels`

  Main results:
    * `NameTable.leavesLevels_internWithin`
    * `NameTable.leavesLevels_setHint`
    * `NameTable.Stamped.purge`
    * `NameTable.level_le_of_purge`
-/

namespace PostScript

namespace NameTable

variable {t t' : NameTable}
variable {n : Name}
variable {level : UInt32}

------------------------------------------------------------
-- Stamps
------------------------------------------------------------

/- The table has a name and says that it was made at a level. -/
def Stamped
    (t : NameTable)
    (n : Name)
    (level : UInt32) : Prop :=
  ∃ e ∈ t.entries, e.name = n ∧ e.level = level

/- Every entry stamps its name. -/
theorem stamped_entry
    {e : NameEntry}
    (he : e ∈ t.entries) :
    t.Stamped e.name e.level :=
  ⟨e, he, rfl, rfl⟩

/- A name that is stamped is in the table. -/
theorem Stamped.holds
    (h : t.Stamped n level) :
    t.Holds n := by
  rcases h with ⟨e, he, hName, -⟩
  exact ⟨e, he, hName⟩

/- Tables whose entries agree but for hints stamp alike. -/
theorem stamped_setHint
    (t : NameTable)
    (m : Name)
    (hint : Option SlotId) :
    (t.setHint m hint).Stamped n level ↔
      t.Stamped n level := by
  have hStamps :=
    t.map_entries_setHint (fun e => (e.name, e.level))
      (fun _ _ => rfl) m hint
  have hMem : ∀ t : NameTable,
      t.Stamped n level ↔
        (n, level) ∈
          t.entries.map (fun e => (e.name, e.level)) := by
    intro t
    simp only [Stamped, List.mem_map, Prod.mk.injEq]
  rw [hMem, hMem, hStamps]

------------------------------------------------------------
-- Tables That Keep Their Level
------------------------------------------------------------

/-
  The level of the table stays, and so do the names in it with
  their stamps; names that are new are stamped with the level.
-/
structure LeavesLevels
    (t t' : NameTable) : Prop where
  level : t'.level = t.level
  kept :
    ∀ n level, t.Stamped n level → t'.Stamped n level
  added :
    ∀ n level, t'.Stamped n level →
      t.Stamped n level ∨ level = t.level

instance : Onward LeavesLevels where
  refl _ := ⟨rfl, fun _ _ => id, fun _ _ => .inl⟩
  trans hFirst hNext := by
    constructor
    case level => exact hNext.level.trans hFirst.level
    case kept =>
      exact fun n level h =>
        hNext.kept n level (hFirst.kept n level h)
    case added =>
      intro n level h
      rcases hNext.added n level h with h | rfl
      · exact hFirst.added n level h
      · exact .inr hFirst.level

/- Remembering and forgetting cells leaves the levels. -/
theorem leavesLevels_setHint
    (t : NameTable)
    (m : Name)
    (hint : Option SlotId) :
    t.LeavesLevels (t.setHint m hint) :=
  ⟨rfl, fun _ _ => (t.stamped_setHint m hint).mpr,
    fun _ _ h => .inl ((t.stamped_setHint m hint).mp h)⟩

/- So does forgetting the cells of several names. -/
theorem leavesLevels_forget
    (t : NameTable)
    (keys : List Name) :
    t.LeavesLevels
      (keys.foldl (fun t key => t.setHint key none) t) := by
  induction keys generalizing t with
  | nil => exact Onward.refl t
  | cons key keys ih =>
      exact Onward.trans (t.leavesLevels_setHint key none)
        (ih (t.setHint key none))

/- A name that is made is stamped with the level. -/
theorem leavesLevels_internWithin
    (t : NameTable)
    (limit : Nat)
    (bytes : Bytes) :
    t.LeavesLevels (t.internWithin limit bytes).2 := by
  rcases t.internWithin_cases limit bytes with
    ⟨-, h⟩ | ⟨_, -, -, h⟩ | ⟨-, -, h⟩
  · rw [h]
    exact Onward.refl t
  · rw [h]
    exact Onward.refl t
  · rw [h]
    constructor
    case level => rfl
    case kept =>
      rintro n level ⟨e, he, hStamp⟩
      exact ⟨e, (t.mem_entries_link _ e).mpr (.inr he), hStamp⟩
    case added =>
      rintro n level ⟨e, he, rfl, rfl⟩
      rcases (t.mem_entries_link _ e).mp he with rfl | he
      · exact .inr rfl
      · exact .inl (stamped_entry he)

------------------------------------------------------------
-- Tables Whose Level Falls
------------------------------------------------------------

section Purging

variable {referenced : Name → Bool}
variable {alive : SlotId → Bool}

/- Names of the new level or below keep their stamps. -/
theorem Stamped.purge
    {before : UInt32}
    (h : t.Stamped n before)
    (hLow : before ≤ level) :
    (t.purge referenced alive level).Stamped n before := by
  rcases h with ⟨e, he, rfl, rfl⟩
  refine stamped_entry (mem_entries_purge.mpr ⟨e, he, ?_⟩)
  unfold purgeEntry
  rw [if_pos hLow]

/- No name is stamped above the level that the table falls to. -/
theorem level_le_of_purge
    {e : NameEntry}
    (he : e ∈ (t.purge referenced alive level).entries) :
    e.level ≤ level := by
  rcases mem_entries_purge.mp he with ⟨e', -, hEntry⟩
  rcases purgeEntry_cases hEntry with
    ⟨hLow, rfl⟩ | ⟨-, rfl, -⟩
  · exact hLow
  · exact UInt32.le_refl level

end Purging

/- System names are never above any level. -/
theorem WellFormed.level_of_system
    (hTable : t.WellFormed)
    {e : NameEntry}
    (he : e ∈ t.entries)
    (hSystem : e.name.systemIndex.isSome = true) :
    e.level = 0 := by
  rcases Option.isSome_iff_exists.mp hSystem with ⟨i, hIndex⟩
  have hBytes := hTable.indexed e he i hIndex
  rcases hTable.system i e.name.bytes hBytes with
    ⟨e', he', hName, hLevel⟩
  have hSame : e' = e :=
    hTable.eq_of_bytes he' he (by rw [hName])
  rw [← hSame]
  exact hLevel

end NameTable

end PostScript
