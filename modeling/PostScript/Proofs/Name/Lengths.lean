import PostScript.Proofs.Name.Initial

/-
  This file shows that no name is longer than names in binary
  object sequences may be, since both ways to make a name have
  a limit.

  Key definitions include:
    * `NameTable.Made`
    * `Name.Exists`

  Main results:
    * `NameTable.Made.reachable`
    * `NameTable.Made.within`
    * `Name.Exists.size_le`
-/

namespace PostScript

namespace NameTable

/-
  The tables that a run leads to in which names are made as
  tokens and in sequences, and in no other way.
-/
inductive Made : NameTable → Prop where
  | initial : Made NameTable.initial
  | intern
      {t : NameTable}
      (bytes : Bytes)
      (h : Made t) :
      Made (t.intern bytes).2
  | internLong
      {t : NameTable}
      (bytes : Bytes)
      (h : Made t) :
      Made (t.internLong bytes).2
  | setHint
      {t : NameTable}
      (n : Name)
      (hint : Option SlotId)
      (h : Made t) :
      Made (t.setHint n hint)
  | setLevel
      {t : NameTable}
      (level : UInt32)
      (h : Made t) :
      Made (t.setLevel level)
  | purge
      {t : NameTable}
      (referenced : Name → Bool)
      (alive : SlotId → Bool)
      (level : UInt32)
      (h : Made t) :
      Made (t.purge referenced alive level)
  | collect
      {t : NameTable}
      (referenced : Name → Bool)
      (h : Made t) :
      Made (t.collect referenced)

/- Each step of such a run is a step of any run. -/
theorem Made.reachable
    {t : NameTable}
    (h : t.Made) :
    t.Reachable := by
  induction h with
  | initial => exact .initial
  | intern bytes _ ih => exact ih.internWithin _ bytes
  | internLong bytes _ ih => exact ih.internWithin _ bytes
  | setHint n hint _ ih => exact ih.setHint n hint
  | setLevel level _ ih => exact ih.setLevel level
  | purge referenced alive level _ ih =>
      exact ih.purge referenced alive level
  | collect referenced _ ih => exact ih.collect referenced

/- All names of a table have at most so many bytes. -/
def Within
    (t : NameTable)
    (limit : Nat) : Prop :=
  ∀ e ∈ t.entries, e.name.bytes.size ≤ limit

/- The first table holds short names. -/
theorem within_initial :
    initial.Within maxNameLength := by
  intro e he
  rw [lists_initial.listed.mem_iff, List.mem_map] at he
  rcases he with ⟨⟨bytes, i⟩, hi, rfl⟩
  rw [List.mem_zipIdx_iff_getElem?,
    Array.getElem?_toList] at hi
  exact size_le_of_mem_systemNames
    (Array.mem_of_getElem? hi)

/- A name that is found or made is no longer than the limit. -/
theorem size_of_internWithin
    {t t' : NameTable}
    {limit : Nat}
    {bytes : Bytes}
    {n : Name}
    (h : t.internWithin limit bytes = (.ok n, t')) :
    n.bytes.size ≤ limit := by
  rw [(holds_of_internWithin h).2]
  rcases t.internWithin_cases limit bytes with
    ⟨-, hResult⟩ | ⟨_, hShort, -, -⟩ | ⟨hShort, -, -⟩
  · rw [hResult] at h
    cases h
  · exact hShort
  · exact hShort

/- Names stay short while no longer ones are made. -/
theorem Within.internWithin
    {t : NameTable}
    {limit limit' : Nat}
    (h : t.Within limit)
    (hLimit : limit' ≤ limit)
    (bytes : Bytes) :
    (t.internWithin limit' bytes).2.Within limit := by
  rcases t.internWithin_cases limit' bytes with
    ⟨-, hResult⟩ | ⟨_, -, -, hResult⟩ | ⟨hShort, -, hResult⟩
  · rw [hResult]
    exact h
  · rw [hResult]
    exact h
  · rw [hResult]
    intro e he
    rcases (t.mem_entries_link _ e).mp he with rfl | he
    · exact Nat.le_trans hShort hLimit
    · exact h e he

/- Entries that are kept under their names stay short. -/
theorem Within.filterMap
    {t : NameTable}
    {limit : Nat}
    (h : t.Within limit)
    {f : NameEntry → Option NameEntry}
    (hName : ∀ e e', f e = some e' → e'.name = e.name) :
    (t.filterMap f).Within limit := by
  intro e he
  rw [entries_filterMap, List.mem_filterMap] at he
  rcases he with ⟨e₀, he₀, hEntry⟩
  rw [hName e₀ e hEntry]
  exact h e₀ he₀

/- Names do not grow with their hints. -/
theorem Within.setHint
    {t : NameTable}
    {limit : Nat}
    (h : t.Within limit)
    (n : Name)
    (hint : Option SlotId) :
    (t.setHint n hint).Within limit := by
  have hSame :=
    map_entries_setHint t NameEntry.name (fun _ _ => rfl)
      n hint
  intro e he
  have hName :
      e.name ∈ (t.setHint n hint).entries.map
        NameEntry.name :=
    List.mem_map_of_mem he
  rw [hSame] at hName
  rcases List.mem_map.mp hName with ⟨e₀, he₀, hEqual⟩
  rw [← hEqual]
  exact h e₀ he₀

/- No name is longer than a sequence allows. -/
theorem Made.within
    {t : NameTable}
    (h : t.Made) :
    t.Within maxLongNameLength := by
  induction h with
  | initial =>
      intro e he
      exact Nat.le_trans (within_initial e he) (by decide)
  | intern bytes _ ih =>
      exact ih.internWithin (by decide) bytes
  | internLong bytes _ ih =>
      exact ih.internWithin (Nat.le_refl _) bytes
  | setHint n hint _ ih => exact ih.setHint n hint
  | setLevel level _ ih => exact ih
  | purge referenced alive level _ ih =>
      exact ih.filterMap (fun _ _ => name_of_purgeEntry)
  | collect referenced _ ih =>
      exact ih.filterMap (fun _ _ h => by
        rw [eq_of_collectEntry h])

end NameTable

/- A name that some table holds or has held. -/
def Name.Exists
    (n : Name) : Prop :=
  ∃ t : NameTable, t.Made ∧ t.Holds n

/- Such a name is no longer than a sequence allows. -/
theorem Name.Exists.size_le
    {n : Name}
    (h : n.Exists) :
    n.bytes.size ≤ maxLongNameLength := by
  rcases h with ⟨t, hMade, e, he, rfl⟩
  exact hMade.within e he

end PostScript
