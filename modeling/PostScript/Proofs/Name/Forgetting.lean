import PostScript.Proofs.Name.Levels

/-
  This file describes what forgetting names leaves of a table.
  When the save level falls, the names above it go that
  nothing refers to and that remember no cell in use, and the
  others from above are stamped anew. When names are
  collected, all go that nothing refers to, but for system
  names. The order of the two does not matter.

  Key definitions include:
    * `NameTable.Forgets`
    * `NameTable.Unused`
    * `NameTable.Purged`
    * `NameTable.Collected`

  Main results:
    * `NameTable.filterMap_comm`
    * `NameTable.WellFormed.purged`
    * `NameTable.purge_again`
    * `NameTable.WellFormed.collected`
    * `NameTable.collect_again`
    * `NameTable.WellFormed.collect_purge`
-/

namespace PostScript

namespace NameTable

variable {t t' : NameTable}
variable {referenced : Name → Bool}
variable {alive : SlotId → Bool}
variable {level : UInt32}
variable {e : NameEntry}

------------------------------------------------------------
-- Filtered Tables
------------------------------------------------------------

section Filtering

variable {f g : NameEntry → Option NameEntry}

/-
  Two filters may change places if they do so at each entry.
  The sizes agree since they count the entries.
-/
theorem filterMap_comm
    (hSize : t.size = t.entries.length)
    (hSwap :
      ∀ e ∈ t.entries, (f e).bind g = (g e).bind f) :
    (t.filterMap f).filterMap g =
      (t.filterMap g).filterMap f := by
  have hBuckets :
      ((t.filterMap f).filterMap g).buckets =
        ((t.filterMap g).filterMap f).buckets := by
    apply buckets_ext
    intro i
    simp only [bucket_filterMap, List.filterMap_filterMap]
    apply List.filterMap_congr
    intro e he
    exact hSwap e ((t.mem_entries e).mpr ⟨i, he⟩)
  have hSizes :
      ((t.filterMap f).filterMap g).size =
        ((t.filterMap g).filterMap f).size := by
    rw [size_filterMap _ g (t.size_filterMap f hSize),
      size_filterMap _ f (t.size_filterMap g hSize)]
    unfold entries
    rw [hBuckets]
  exact NameTable.mk.injEq .. ▸
    ⟨hBuckets, rfl, hSizes, rfl, rfl⟩

/- A filter that keeps every entry changes nothing. -/
theorem filterMap_eq_self
    (hKept : ∀ e ∈ t.entries, f e = some e) :
    t.filterMap f = t := by
  have hBuckets : (t.filterMap f).buckets = t.buckets := by
    apply buckets_ext
    intro i
    rw [bucket_filterMap]
    calc (t.bucket i).filterMap f
        = (t.bucket i).filterMap some := by
          apply List.filterMap_congr
          intro e he
          exact hKept e ((t.mem_entries e).mpr ⟨i, he⟩)
      _ = t.bucket i := List.filterMap_some
  have hNone :
      t.entries.countP (fun e => (f e).isNone) = 0 := by
    rw [List.countP_eq_zero]
    intro e he
    rw [hKept e he]
    exact Bool.false_ne_true
  have hSize : (t.filterMap f).size = t.size := by
    change t.size - t.entries.countP _ = t.size
    rw [hNone]
    rfl
  exact NameTable.mk.injEq .. ▸
    ⟨hBuckets, rfl, hSize, rfl, rfl⟩

/- The size falls by the number of the entries that go. -/
theorem size_filterMap_add
    {P : NameEntry → Prop}
    [DecidablePred P]
    (hSize : t.size = t.entries.length)
    (hGone : ∀ e ∈ t.entries, f e = none ↔ P e) :
    (t.filterMap f).size + t.entries.countP (fun e => P e) =
      t.size := by
  have hCount :
      t.entries.countP (fun e => (f e).isNone) =
        t.entries.countP (fun e => P e) := by
    apply List.countP_congr
    intro e he
    rw [Option.isNone_iff_eq_none, hGone e he,
      decide_eq_true_iff]
  have hAll :=
    List.countP_le_length
      (p := fun e => decide (P e)) (l := t.entries)
  change t.size - t.entries.countP _ + _ = t.size
  rw [hCount]
  omega

/- What is looked up in vain is the bytes of no entry. -/
theorem lookup_eq_none
    {bytes : Bytes}
    (hBytes : ∀ e ∈ t.entries, e.name.bytes ≠ bytes) :
    t.lookup bytes = none := by
  cases hLookup : t.lookup bytes with
  | none => rfl
  | some n =>
      rcases holds_of_lookup hLookup with
        ⟨⟨e, he, rfl⟩, hSame⟩
      exact absurd hSame (hBytes e he)

/- An entry that goes leaves nothing with its bytes. -/
theorem WellFormed.lookup_filterMap
    (hTable : t.WellFormed)
    (hName : ∀ e e', f e = some e' → e'.name = e.name)
    (he : e ∈ t.entries)
    (hGone : f e = none) :
    (t.filterMap f).lookup e.name.bytes = none := by
  apply lookup_eq_none
  intro e' he' hBytes
  rw [entries_filterMap] at he'
  rcases List.mem_filterMap.mp he' with ⟨e₀, he₀, hKept⟩
  have hSame : e₀ = e :=
    hTable.eq_of_bytes he₀ he
      (by rw [← hName e₀ e' hKept, hBytes])
  rw [hSame, hGone] at hKept
  contradiction

end Filtering

/- The name of an entry is found under its bytes. -/
theorem WellFormed.lookup_entry
    (hTable : t.WellFormed)
    (he : e ∈ t.entries) :
    t.lookup e.name.bytes = some e.name :=
  (hTable.lookup_eq_some_iff _ _).mpr ⟨⟨e, he, rfl⟩, rfl⟩

------------------------------------------------------------
-- Falling Levels
------------------------------------------------------------

/-
  The names that go when the level falls: they are from above,
  nothing refers to them, and no cell in use is remembered.
-/
def Forgets
    (referenced : Name → Bool)
    (alive : SlotId → Bool)
    (level : UInt32)
    (e : NameEntry) : Prop :=
  level < e.level ∧ referenced e.name = false ∧
    e.hint.any alive = false

instance
    (referenced : Name → Bool)
    (alive : SlotId → Bool)
    (level : UInt32) :
    DecidablePred (Forgets referenced alive level) :=
  fun _ => inferInstanceAs (Decidable (_ ∧ _ ∧ _))

/-
  What is left of a table when the level falls. Entries of the
  new level or below stay as they are. Those from above are
  forgotten, and not found any more, or they stay with their
  names, stamped anew and without a hint. Their order is the
  same, and all that stay are found.
-/
structure Purged
    (referenced : Name → Bool)
    (alive : SlotId → Bool)
    (level : UInt32)
    (t t' : NameTable) : Prop where
  low : ∀ e ∈ t.entries, e.level ≤ level → e ∈ t'.entries
  stamped :
    ∀ e ∈ t.entries, level < e.level →
      ¬ Forgets referenced alive level e →
        ⟨e.name, level, none⟩ ∈ t'.entries
  forgotten :
    ∀ e ∈ t.entries, Forgets referenced alive level e →
      ¬ t'.Holds e.name ∧ t'.lookup e.name.bytes = none
  ordered :
    (t'.entries.map NameEntry.name).Sublist
      (t.entries.map NameEntry.name)
  found :
    ∀ e ∈ t'.entries,
      t'.lookup e.name.bytes = some e.name
  system :
    ∀ e ∈ t.entries, e.name.systemIndex.isSome →
      e ∈ t'.entries
  numbers : t'.system = t.system
  size :
    t'.size +
        t.entries.countP
          (fun e => Forgets referenced alive level e) =
      t.size
  level : t'.level = level

/- An entry goes if it is forgotten, and not otherwise. -/
theorem WellFormed.purgeEntry_eq_none_iff
    (hTable : t.WellFormed)
    (he : e ∈ t.entries) :
    purgeEntry referenced alive level e = none ↔
      Forgets referenced alive level e := by
  have hSystem :
      level < e.level → e.name.systemIndex.isSome = false := by
    intro hHigh
    by_contra hSome
    rw [Bool.not_eq_false] at hSome
    rw [hTable.level_of_system he hSome] at hHigh
    exact absurd hHigh UInt32.not_lt_zero
  unfold purgeEntry Forgets
  by_cases hLow : e.level ≤ level
  · simp [hLow, UInt32.not_lt.mpr hLow]
  · have hHigh := UInt32.not_le.mp hLow
    simp [hLow, hHigh, hSystem hHigh]

/- The table that is left is such. -/
theorem WellFormed.purged
    (hTable : t.WellFormed)
    (referenced : Name → Bool)
    (alive : SlotId → Bool)
    (level : UInt32) :
    Purged referenced alive level t
      (t.purge referenced alive level) := by
  have hName :
      ∀ e e', purgeEntry referenced alive level e = some e' →
        e'.name = e.name :=
    fun _ _ h => name_of_purgeEntry h
  have hAfter := hTable.purge referenced alive level
  have hLow :
      ∀ e ∈ t.entries, e.level ≤ level →
        e ∈ (t.purge referenced alive level).entries := by
    intro e he hLevel
    refine mem_entries_purge.mpr ⟨e, he, ?_⟩
    rw [purgeEntry, if_pos hLevel]
  constructor
  case low => exact hLow
  case stamped =>
    intro e he hHigh hKept
    rw [← hTable.purgeEntry_eq_none_iff he,
      ← ne_eq, Option.ne_none_iff_exists'] at hKept
    rcases hKept with ⟨e', hEntry⟩
    rcases purgeEntry_cases hEntry with
      ⟨hLevel, -⟩ | ⟨-, rfl, -⟩
    · exact absurd hLevel (Nat.not_le_of_lt hHigh)
    · exact mem_entries_purge.mpr ⟨e, he, hEntry⟩
  case forgotten =>
    intro e he hForgets
    have hGone := (hTable.purgeEntry_eq_none_iff he).mpr hForgets
    have hLost := hTable.lookup_filterMap hName he hGone
    refine ⟨?_, hLost⟩
    intro hHolds
    have hFound :=
      (hAfter.lookup_eq_some_iff e.name.bytes e.name).mpr
        ⟨hHolds, rfl⟩
    cases hLost.symm.trans hFound
  case ordered => exact t.names_filterMap_sublist hName
  case found => exact fun e he => hAfter.lookup_entry he
  case system =>
    intro e he hSystem
    apply hLow e he
    rw [hTable.level_of_system he hSystem]
    exact UInt32.zero_le
  case numbers => rfl
  case size =>
    exact size_filterMap_add hTable.counted
      (fun e he => hTable.purgeEntry_eq_none_iff he)
  case level => rfl

/-
  When the level has fallen, it may fall to the same level
  again, whatever is referenced by then, and nothing happens.
-/
theorem purge_again
    (t : NameTable)
    (referenced referenced' : Name → Bool)
    (alive alive' : SlotId → Bool)
    (level : UInt32) :
    (t.purge referenced alive level).purge referenced' alive'
        level =
      t.purge referenced alive level := by
  have hSame :
      (t.purge referenced alive level).filterMap
          (purgeEntry referenced' alive' level) =
        t.purge referenced alive level := by
    apply filterMap_eq_self
    intro e he
    rw [purgeEntry, if_pos (level_le_of_purge he)]
  unfold purge at hSame ⊢
  rw [hSame]
  rfl

------------------------------------------------------------
-- Collecting
------------------------------------------------------------

/- The names that are collected have no number and no use. -/
def Unused
    (referenced : Name → Bool)
    (e : NameEntry) : Prop :=
  e.name.systemIndex = none ∧ referenced e.name = false

instance
    (referenced : Name → Bool) :
    DecidablePred (Unused referenced) :=
  fun _ => inferInstanceAs (Decidable (_ ∧ _))

/-
  What is left of a table when names are collected. The unused
  entries go, and are not found any more; all others stay as
  they are, in their order, and are found.
-/
structure Collected
    (referenced : Name → Bool)
    (t t' : NameTable) : Prop where
  kept :
    ∀ e ∈ t.entries, ¬ Unused referenced e → e ∈ t'.entries
  collected :
    ∀ e ∈ t.entries, Unused referenced e →
      ¬ t'.Holds e.name ∧ t'.lookup e.name.bytes = none
  ordered : t'.entries.Sublist t.entries
  found :
    ∀ e ∈ t'.entries,
      t'.lookup e.name.bytes = some e.name
  numbers : t'.system = t.system
  size :
    t'.size +
        t.entries.countP (fun e => Unused referenced e) =
      t.size
  level : t'.level = t.level

/- An entry stays as it is unless it is unused. -/
theorem collectEntry_eq
    (referenced : Name → Bool)
    (e : NameEntry) :
    collectEntry referenced e =
      if Unused referenced e then none else some e := by
  unfold collectEntry
  by_cases hUnused : Unused referenced e
  · simp [hUnused, hUnused.1, hUnused.2]
  · rw [if_neg hUnused]
    apply if_pos
    unfold Unused at hUnused
    rw [not_and_or, Bool.not_eq_false] at hUnused
    rw [Bool.or_eq_true, Option.isSome_iff_ne_none]
    exact hUnused

/- The entries that are left are those of some use. -/
theorem entries_collect
    (t : NameTable)
    (referenced : Name → Bool) :
    (t.collect referenced).entries =
      t.entries.filter (fun e => ¬ Unused referenced e) := by
  unfold collect
  rw [entries_filterMap, ← List.filterMap_eq_filter]
  apply List.filterMap_congr
  intro e _
  rw [collectEntry_eq]
  by_cases hUnused : Unused referenced e <;>
    simp [Option.guard, hUnused]

/- The table that is left is such. -/
theorem WellFormed.collected
    (hTable : t.WellFormed)
    (referenced : Name → Bool) :
    Collected referenced t (t.collect referenced) := by
  have hAfter := hTable.collect referenced
  have hGone :
      ∀ e, collectEntry referenced e = none ↔
        Unused referenced e := by
    intro e
    rw [collectEntry_eq]
    split <;> simp [*]
  constructor
  case kept =>
    intro e he hUsed
    rw [entries_collect]
    exact List.mem_filter.mpr ⟨he, decide_eq_true hUsed⟩
  case collected =>
    intro e he hUnused
    have hLost :=
      hTable.lookup_filterMap
        (fun e e' h => by rw [eq_of_collectEntry h]) he
        ((hGone e).mpr hUnused)
    refine ⟨?_, hLost⟩
    intro hHolds
    have hFound :=
      (hAfter.lookup_eq_some_iff e.name.bytes e.name).mpr
        ⟨hHolds, rfl⟩
    cases hLost.symm.trans hFound
  case ordered =>
    rw [entries_collect]
    exact List.filter_sublist
  case found => exact fun e he => hAfter.lookup_entry he
  case numbers => rfl
  case size =>
    exact size_filterMap_add hTable.counted
      (fun e _ => hGone e)
  case level => rfl

/- Collecting again finds nothing to collect. -/
theorem collect_again
    (t : NameTable)
    (referenced : Name → Bool) :
    (t.collect referenced).collect referenced =
      t.collect referenced := by
  apply filterMap_eq_self
  intro e he
  rw [entries_collect] at he
  rw [collectEntry_eq,
    if_neg (of_decide_eq_true (List.mem_filter.mp he).2)]

/-
  Names may be collected before the level falls or afterwards.
  What is in use stays in both ways, and what is not goes:
  that it may remember a cell does not help.
-/
theorem WellFormed.collect_purge
    (hTable : t.WellFormed)
    (referenced : Name → Bool)
    (alive : SlotId → Bool)
    (level : UInt32) :
    (t.collect referenced).purge referenced alive level =
      (t.purge referenced alive level).collect referenced := by
  have hSwap :
      (t.filterMap (collectEntry referenced)).filterMap
          (purgeEntry referenced alive level) =
        (t.filterMap
          (purgeEntry referenced alive level)).filterMap
            (collectEntry referenced) := by
    apply filterMap_comm hTable.counted
    intro e _
    cases hEntry : purgeEntry referenced alive level e with
    | none =>
        rw [Option.bind_none, collectEntry_eq]
        split
        · rfl
        · exact hEntry
    | some e' =>
        -- the entry that stays has the same name
        have hSame :
            Unused referenced e' ↔ Unused referenced e := by
          unfold Unused
          rw [name_of_purgeEntry hEntry]
        rw [Option.bind_some, collectEntry_eq,
          collectEntry_eq]
        by_cases hUnused : Unused referenced e
        · rw [if_pos hUnused, if_pos (hSame.mpr hUnused)]
          rfl
        · rw [if_neg hUnused, if_neg (hUnused ∘ hSame.mp)]
          exact hEntry
  calc (t.collect referenced).purge referenced alive level
      = ((t.filterMap (collectEntry referenced)).filterMap
          (purgeEntry referenced alive level)).setLevel
            level := rfl
    _ = ((t.filterMap
          (purgeEntry referenced alive level)).filterMap
            (collectEntry referenced)).setLevel level := by
        rw [hSwap]
    _ = (t.purge referenced alive level).collect
          referenced := rfl

end NameTable

end PostScript
