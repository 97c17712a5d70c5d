import Mathlib.Data.List.Nodup
import PostScript.Proofs.Name.Entries

/-
  This file defines well-formed tables of names, in which
  names with the same bytes are the same name, each entry
  stands in the bucket of its bytes, and the system names are
  there under their numbers. Every operation keeps a table
  well formed.

  Key definitions include:
    * `NameTable.WellFormed`
    * `NameTable.Reachable`

  Main results:
    * `NameTable.WellFormed.find?_bytes`
    * `NameTable.WellFormed.lookup_eq_some_iff`
    * `NameTable.WellFormed.internWithin`
    * `NameTable.WellFormed.purge`
    * `NameTable.WellFormed.collect`
-/

namespace PostScript

namespace NameTable

/-
  What holds of every table. System names come first and are
  numbered by their index.
-/
structure WellFormed
    (t : NameTable) : Prop where
  placed :
    ∀ i : Fin bucketCount,
      ∀ e ∈ t.bucket i, bucketOf e.name.bytes = i
  distinct :
    (t.entries.map (fun e => e.name.bytes)).Nodup
  numbered :
    (t.entries.map (fun e => e.name.id)).Nodup
  fresh :
    ∀ e ∈ t.entries, e.name.id < t.nextId
  counted :
    t.size = t.entries.length
  recorded :
    ∀ i,
      t.system[i]? =
        (systemNames[i]?).map
          (fun bytes => (⟨i, bytes, some i⟩ : Name))
  system :
    ∀ i bytes,
      systemNames[i]? = some bytes →
        ∃ e ∈ t.entries,
          e.name = ⟨i, bytes, some i⟩ ∧ e.level = 0
  indexed :
    ∀ e ∈ t.entries,
      ∀ i, e.name.systemIndex = some i →
        systemNames[i]? = some e.name.bytes

/- The tables that a run can lead to. -/
inductive Reachable : NameTable → Prop where
  | initial : Reachable NameTable.initial
  | internWithin
      {t : NameTable}
      (limit : Nat)
      (bytes : Bytes)
      (h : Reachable t) :
      Reachable (t.internWithin limit bytes).2
  | setHint
      {t : NameTable}
      (n : Name)
      (hint : Option SlotId)
      (h : Reachable t) :
      Reachable (t.setHint n hint)
  | setLevel
      {t : NameTable}
      (level : UInt32)
      (h : Reachable t) :
      Reachable (t.setLevel level)
  | purge
      {t : NameTable}
      (referenced : Name → Bool)
      (alive : SlotId → Bool)
      (level : UInt32)
      (h : Reachable t) :
      Reachable (t.purge referenced alive level)
  | collect
      {t : NameTable}
      (referenced : Name → Bool)
      (h : Reachable t) :
      Reachable (t.collect referenced)

------------------------------------------------------------
-- Finding Entries
------------------------------------------------------------

/- A name that is found has an entry. -/
theorem holds_of_lookup
    {t : NameTable}
    {bytes : Bytes}
    {n : Name}
    (hLookup : t.lookup bytes = some n) :
    t.Holds n ∧ n.bytes = bytes := by
  unfold lookup at hLookup
  rw [Option.map_eq_some_iff] at hLookup
  rcases hLookup with ⟨e, hFind, rfl⟩
  refine ⟨⟨e, ?_, rfl⟩, by simpa using List.find?_some hFind⟩
  exact (t.mem_entries e).mpr
    ⟨_, List.mem_reverse.mp (List.mem_of_find?_eq_some hFind)⟩

namespace WellFormed

variable {t : NameTable}
variable (hTable : t.WellFormed)

include hTable

/- An entry stands in the bucket of its bytes. -/
theorem mem_bucket
    {e : NameEntry}
    (he : e ∈ t.entries) :
    e ∈ t.bucket (bucketOf e.name.bytes) := by
  rcases (t.mem_entries e).mp he with ⟨i, hi⟩
  have hPlaced := hTable.placed i e hi
  subst hPlaced
  exact hi

/- Two entries with the same bytes are one. -/
theorem eq_of_bytes
    {e e' : NameEntry}
    (he : e ∈ t.entries)
    (he' : e' ∈ t.entries)
    (hBytes : e.name.bytes = e'.name.bytes) :
    e = e' :=
  List.inj_on_of_nodup_map hTable.distinct he he' hBytes

/- Two entries with the same number are one. -/
theorem eq_of_id
    {e e' : NameEntry}
    (he : e ∈ t.entries)
    (he' : e' ∈ t.entries)
    (hId : e.name.id = e'.name.id) :
    e = e' :=
  List.inj_on_of_nodup_map hTable.numbered he he' hId

/- Every entry is found under its bytes. -/
theorem find?_bytes
    {e : NameEntry}
    (he : e ∈ t.entries) :
    t.find? e.name.bytes = some e := by
  have hSome :
      (t.find? e.name.bytes).isSome = true := by
    unfold find?
    rw [List.find?_isSome]
    exact ⟨e, List.mem_reverse.mpr (hTable.mem_bucket he),
      by simp⟩
  rcases Option.isSome_iff_exists.mp hSome with ⟨e', hFind⟩
  have hBytes : e'.name.bytes = e.name.bytes := by
    simpa using List.find?_some hFind
  have he' : e' ∈ t.entries :=
    (t.mem_entries e').mpr
      ⟨_, List.mem_reverse.mp
        (List.mem_of_find?_eq_some hFind)⟩
  rw [hFind, hTable.eq_of_bytes he' he hBytes]

/- Every entry is found by its name. -/
theorem entry?_name
    {e : NameEntry}
    (he : e ∈ t.entries) :
    t.entry? e.name = some e := by
  have hSome : (t.entry? e.name).isSome = true := by
    unfold entry?
    rw [List.find?_isSome]
    exact ⟨e, hTable.mem_bucket he, by simp [Name.is]⟩
  rcases Option.isSome_iff_exists.mp hSome with ⟨e', hFind⟩
  have hId : e'.name.id = e.name.id := by
    simpa [Name.is] using List.find?_some hFind
  have he' : e' ∈ t.entries :=
    (t.mem_entries e').mpr
      ⟨_, List.mem_of_find?_eq_some hFind⟩
  rw [hFind, hTable.eq_of_id he' he hId]

/- Looking up bytes finds exactly the name that has them. -/
theorem lookup_eq_some_iff
    (bytes : Bytes)
    (n : Name) :
    t.lookup bytes = some n ↔
      t.Holds n ∧ n.bytes = bytes := by
  constructor
  · exact holds_of_lookup
  · rintro ⟨⟨e, he, rfl⟩, rfl⟩
    unfold lookup
    rw [hTable.find?_bytes he]
    rfl

/- Names in the table are the same if their bytes are. -/
theorem is_iff_bytes
    {m n : Name}
    (hm : t.Holds m)
    (hn : t.Holds n) :
    m.is n = true ↔ m.bytes = n.bytes := by
  rcases hm with ⟨e, he, rfl⟩
  rcases hn with ⟨e', he', rfl⟩
  rw [Name.is_iff]
  constructor
  · intro hId
    rw [hTable.eq_of_id he he' hId]
  · intro hBytes
    rw [hTable.eq_of_bytes he he' hBytes]

/- The same name is one name in every respect. -/
theorem eq_of_is
    {m n : Name}
    (hm : t.Holds m)
    (hn : t.Holds n)
    (hSame : m.is n = true) :
    m = n := by
  rcases hm with ⟨e, he, rfl⟩
  rcases hn with ⟨e', he', rfl⟩
  rw [hTable.eq_of_id he he' ((Name.is_iff _ _).mp hSame)]

/- The system name with a number is in the table. -/
theorem systemName?_eq
    {i : Nat}
    {bytes : Bytes}
    (hSystem : systemNames[i]? = some bytes) :
    t.systemName? i = some ⟨i, bytes, some i⟩ := by
  unfold systemName?
  rw [hTable.recorded, hSystem]
  rfl

/- A name in the table that has a number is found by it. -/
theorem systemName?_index
    {n : Name}
    (hn : t.Holds n)
    {i : Nat}
    (hIndex : n.systemIndex = some i) :
    t.systemName? i = some n := by
  rcases hn with ⟨e, he, rfl⟩
  have hSystem := hTable.indexed e he i hIndex
  rcases hTable.system i e.name.bytes hSystem with
    ⟨e', he', hName, -⟩
  rw [hTable.systemName?_eq hSystem, ← hName]
  have hBytes : e'.name.bytes = e.name.bytes := by
    rw [hName]
  rw [hTable.eq_of_bytes he' he hBytes]

/- A system name is in the table. -/
theorem holds_system
    {n : Name}
    (hn : n ∈ t.system) :
    t.Holds n := by
  rcases Array.mem_iff_getElem?.mp hn with ⟨i, hi⟩
  rw [hTable.recorded] at hi
  rcases Option.map_eq_some_iff.mp hi with
    ⟨bytes, hSystem, rfl⟩
  rcases hTable.system i bytes hSystem with
    ⟨e, he, hName, -⟩
  exact ⟨e, he, hName⟩

/- The numbers of names in the table are those of the list. -/
theorem index_lt
    {n : Name}
    (hn : t.Holds n)
    {i : Nat}
    (hIndex : n.systemIndex = some i) :
    i < systemNames.size := by
  rcases hn with ⟨e, he, rfl⟩
  have hBytes := hTable.indexed e he i hIndex
  exact (Array.getElem?_eq_some_iff.mp hBytes).1

end WellFormed

------------------------------------------------------------
-- Operations
------------------------------------------------------------

/- A name keeps its entry when some hint changes. -/
theorem holds_setHint
    (t : NameTable)
    (m n : Name)
    (hint : Option SlotId) :
    (t.setHint m hint).Holds n ↔ t.Holds n := by
  have hNames :=
    map_entries_setHint t NameEntry.name (fun _ _ => rfl) m hint
  unfold Holds
  rw [← List.mem_map, ← List.mem_map, hNames]

/-
  Names are neither moved nor changed by a hint, so a table
  stays well formed.
-/
theorem WellFormed.setHint
    {t : NameTable}
    (hTable : t.WellFormed)
    (n : Name)
    (hint : Option SlotId) :
    (t.setHint n hint).WellFormed := by
  have hNames :=
    map_entries_setHint t NameEntry.name (fun _ _ => rfl)
      n hint
  have hPairs :=
    map_entries_setHint t (fun e => (e.name, e.level))
      (fun _ _ => rfl) n hint
  have hName :
      ∀ e ∈ (t.setHint n hint).entries,
        ∃ e₀ ∈ t.entries, e₀.name = e.name := by
    intro e he
    have hMem := List.mem_map_of_mem (f := NameEntry.name) he
    rw [hNames] at hMem
    exact List.mem_map.mp hMem
  constructor
  case placed =>
    intro i e he
    rw [bucket_setHint] at he
    split at he
    · rcases List.mem_map.mp he with ⟨e₀, he₀, rfl⟩
      have hPlaced := hTable.placed i e₀ he₀
      split <;> exact hPlaced
    · exact hTable.placed i e he
  case distinct =>
    rw [map_entries_setHint t (fun e => e.name.bytes)
      (fun _ _ => rfl)]
    exact hTable.distinct
  case numbered =>
    rw [map_entries_setHint t (fun e => e.name.id)
      (fun _ _ => rfl)]
    exact hTable.numbered
  case fresh =>
    intro e he
    rcases hName e he with ⟨e₀, he₀, hSame⟩
    rw [← hSame]
    exact hTable.fresh e₀ he₀
  case counted =>
    have hLength := congrArg List.length hNames
    rw [List.length_map, List.length_map] at hLength
    rw [hLength]
    exact hTable.counted
  case recorded => exact hTable.recorded
  case system =>
    intro i bytes hSystem
    rcases hTable.system i bytes hSystem with
      ⟨e, he, hSame, hLevel⟩
    have hMem :=
      List.mem_map_of_mem (f := fun e => (e.name, e.level)) he
    rw [← hPairs] at hMem
    rcases List.mem_map.mp hMem with ⟨e', he', hPair⟩
    simp only [Prod.mk.injEq] at hPair
    exact ⟨e', he', hPair.1.trans hSame,
      hPair.2.trans hLevel⟩
  case indexed =>
    intro e he i hIndex
    rcases hName e he with ⟨e₀, he₀, hSame⟩
    rw [← hSame] at hIndex ⊢
    exact hTable.indexed e₀ he₀ i hIndex

/- The level of new names says nothing about the old. -/
theorem WellFormed.setLevel
    {t : NameTable}
    (hTable : t.WellFormed)
    (level : UInt32) :
    (t.setLevel level).WellFormed :=
  ⟨hTable.placed, hTable.distinct, hTable.numbered,
    hTable.fresh, hTable.counted, hTable.recorded,
    hTable.system, hTable.indexed⟩

/-
  A new name keeps a table well formed if its bytes are not
  there yet and it is no system name.
-/
theorem WellFormed.link
    {t : NameTable}
    (hTable : t.WellFormed)
    (e : NameEntry)
    (hId : e.name.id = t.nextId)
    (hNew : ∀ e' ∈ t.entries, e'.name.bytes ≠ e.name.bytes)
    (hIndex : e.name.systemIndex = none) :
    (t.link e).WellFormed := by
  have hPerm := t.entries_link e
  constructor
  case placed =>
    intro i e' he'
    rw [bucket_link] at he'
    split at he'
    next hSame =>
      rcases List.mem_append.mp he' with he' | he'
      · exact hTable.placed i e' he'
      · rw [List.mem_singleton.mp he']
        exact hSame
    next => exact hTable.placed i e' he'
  case distinct =>
    rw [(hPerm.map _).nodup_iff, List.map_cons,
      List.nodup_cons]
    refine ⟨?_, hTable.distinct⟩
    intro hMem
    rcases List.mem_map.mp hMem with ⟨e', he', hBytes⟩
    exact hNew e' he' hBytes
  case numbered =>
    rw [(hPerm.map _).nodup_iff, List.map_cons,
      List.nodup_cons]
    refine ⟨?_, hTable.numbered⟩
    intro hMem
    rcases List.mem_map.mp hMem with ⟨e', he', hSame⟩
    have hLess := hTable.fresh e' he'
    omega
  case fresh =>
    intro e' he'
    change e'.name.id < t.nextId + 1
    rcases (t.mem_entries_link e e').mp he' with rfl | he'
    · omega
    · have hLess := hTable.fresh e' he'
      omega
  case counted =>
    rw [hPerm.length_eq, List.length_cons,
      ← hTable.counted]
    rfl
  case recorded => exact hTable.recorded
  case system =>
    intro i bytes hSystem
    rcases hTable.system i bytes hSystem with ⟨e', he', h⟩
    exact ⟨e', (t.mem_entries_link e e').mpr (.inr he'), h⟩
  case indexed =>
    intro e' he' i hi
    rcases (t.mem_entries_link e e').mp he' with rfl | he'
    · rw [hIndex] at hi
      contradiction
    · exact hTable.indexed e' he' i hi

/- The names of the entries that stay keep their order. -/
theorem names_filterMap_sublist
    (t : NameTable)
    {f : NameEntry → Option NameEntry}
    (hName : ∀ e e', f e = some e' → e'.name = e.name) :
    ((t.filterMap f).entries.map NameEntry.name).Sublist
      (t.entries.map NameEntry.name) := by
  rw [entries_filterMap]
  induction t.entries with
  | nil => exact List.Sublist.slnil
  | cons e es ih =>
      cases hf : f e with
      | none =>
          rw [List.filterMap_cons_none hf]
          exact ih.cons _
      | some e' =>
          rw [List.filterMap_cons_some hf, List.map_cons,
            List.map_cons, hName e e' hf]
          exact ih.cons_cons _

/-
  Entries may leave if the system names stay, and what stays
  keeps its name.
-/
theorem WellFormed.filterMap
    {t : NameTable}
    (hTable : t.WellFormed)
    (f : NameEntry → Option NameEntry)
    (hName : ∀ e e', f e = some e' → e'.name = e.name)
    (hSystem :
      ∀ e, e.name.systemIndex.isSome → e.level = 0 →
        f e = some e) :
    (t.filterMap f).WellFormed := by
  have hOld :
      ∀ e' ∈ (t.filterMap f).entries,
        ∃ e ∈ t.entries, e'.name = e.name := by
    intro e' he'
    rw [entries_filterMap] at he'
    rcases List.mem_filterMap.mp he' with ⟨e, he, hf⟩
    exact ⟨e, he, hName e e' hf⟩
  have hSublist :
      ∀ {α : Type} (g : Name → α),
        ((t.filterMap f).entries.map
          (fun e => g e.name)).Sublist
            (t.entries.map (fun e => g e.name)) := by
    intro α g
    have hNames := (t.names_filterMap_sublist hName).map g
    rw [List.map_map, List.map_map] at hNames
    exact hNames
  constructor
  case placed =>
    intro i e' he'
    rw [bucket_filterMap] at he'
    rcases List.mem_filterMap.mp he' with ⟨e, he, hf⟩
    rw [hName e e' hf]
    exact hTable.placed i e he
  case distinct =>
    exact hTable.distinct.sublist (hSublist Name.bytes)
  case numbered =>
    exact hTable.numbered.sublist (hSublist Name.id)
  case fresh =>
    intro e' he'
    rcases hOld e' he' with ⟨e, he, hSame⟩
    rw [hSame]
    exact hTable.fresh e he
  case counted =>
    exact t.size_filterMap f hTable.counted
  case recorded => exact hTable.recorded
  case system =>
    intro i bytes hBytes
    rcases hTable.system i bytes hBytes with
      ⟨e, he, hSame, hLevel⟩
    refine ⟨e, ?_, hSame, hLevel⟩
    rw [entries_filterMap, List.mem_filterMap]
    refine ⟨e, he, hSystem e ?_ hLevel⟩
    rw [hSame]
    rfl
  case indexed =>
    intro e' he' i hi
    rcases hOld e' he' with ⟨e, he, hSame⟩
    rw [hSame] at hi ⊢
    exact hTable.indexed e he i hi

------------------------------------------------------------
-- Making and Forgetting
------------------------------------------------------------

/-
  What making a name on demand does: nothing when the bytes
  are too many or known, and one new entry otherwise.
-/
theorem internWithin_cases
    (t : NameTable)
    (limit : Nat)
    (bytes : Bytes) :
    (limit < bytes.size ∧
      t.internWithin limit bytes = (.error .tooLong, t)) ∨
    (∃ n, bytes.size ≤ limit ∧ t.lookup bytes = some n ∧
      t.internWithin limit bytes = (.ok n, t)) ∨
    (bytes.size ≤ limit ∧ t.lookup bytes = none ∧
      t.internWithin limit bytes =
        (.ok ⟨t.nextId, bytes, none⟩,
          t.link ⟨⟨t.nextId, bytes, none⟩, t.level, none⟩)) :=
    by
  unfold internWithin
  split
  next hLong => exact .inl ⟨hLong, rfl⟩
  next hShort =>
    have hLimit : bytes.size ≤ limit := Nat.le_of_not_lt hShort
    cases hLookup : t.lookup bytes with
    | some n => exact .inr (.inl ⟨n, hLimit, rfl, rfl⟩)
    | none => exact .inr (.inr ⟨hLimit, rfl, rfl⟩)

/- Bytes that are looked up in vain are nowhere. -/
theorem WellFormed.bytes_ne_of_lookup
    {t : NameTable}
    (hTable : t.WellFormed)
    {bytes : Bytes}
    (hLookup : t.lookup bytes = none) :
    ∀ e ∈ t.entries, e.name.bytes ≠ bytes := by
  intro e he hBytes
  have hFound :=
    (hTable.lookup_eq_some_iff bytes e.name).mpr
      ⟨⟨e, he, rfl⟩, hBytes⟩
  rw [hLookup] at hFound
  contradiction

/- To make a name that is there gives that name. -/
theorem WellFormed.internWithin_of_holds
    {t : NameTable}
    (hTable : t.WellFormed)
    {n : Name}
    (hn : t.Holds n)
    {limit : Nat}
    (hShort : n.bytes.size ≤ limit) :
    t.internWithin limit n.bytes = (.ok n, t) := by
  have hFound :=
    (hTable.lookup_eq_some_iff n.bytes n).mpr ⟨hn, rfl⟩
  unfold NameTable.internWithin
  rw [if_neg (Nat.not_lt.mpr hShort), hFound]

/- Making names on demand keeps a table well formed. -/
theorem WellFormed.internWithin
    {t : NameTable}
    (hTable : t.WellFormed)
    (limit : Nat)
    (bytes : Bytes) :
    (t.internWithin limit bytes).2.WellFormed := by
  rcases t.internWithin_cases limit bytes with
    ⟨-, h⟩ | ⟨n, -, -, h⟩ | ⟨-, hLookup, h⟩
  · rw [h]
    exact hTable
  · rw [h]
    exact hTable
  · rw [h]
    exact hTable.link _ rfl
      (hTable.bytes_ne_of_lookup hLookup) rfl

/- Names keep their entries while others are made. -/
theorem Holds.internWithin
    {t : NameTable}
    {n : Name}
    (hn : t.Holds n)
    (limit : Nat)
    (bytes : Bytes) :
    (t.internWithin limit bytes).2.Holds n := by
  rcases t.internWithin_cases limit bytes with
    ⟨-, h⟩ | ⟨_, -, -, h⟩ | ⟨-, -, h⟩
  · rw [h]
    exact hn
  · rw [h]
    exact hn
  · rw [h]
    rcases hn with ⟨e, he, hName⟩
    exact ⟨e, (t.mem_entries_link _ e).mpr (.inr he), hName⟩

/- A name that is made on demand has an entry. -/
theorem holds_of_internWithin
    {t t' : NameTable}
    {limit : Nat}
    {bytes : Bytes}
    {n : Name}
    (h : t.internWithin limit bytes = (.ok n, t')) :
    t'.Holds n ∧ n.bytes = bytes := by
  rcases t.internWithin_cases limit bytes with
    ⟨-, h'⟩ | ⟨_, -, hLookup, h'⟩ | ⟨-, -, h'⟩
  · rw [h'] at h
    simp at h
  · rw [h'] at h
    simp only [Prod.mk.injEq, Except.ok.injEq] at h
    rcases h with ⟨rfl, rfl⟩
    exact holds_of_lookup hLookup
  · rw [h'] at h
    simp only [Prod.mk.injEq, Except.ok.injEq] at h
    rcases h with ⟨rfl, rfl⟩
    exact ⟨⟨_, (t.mem_entries_link _ _).mpr (.inl rfl), rfl⟩,
      rfl⟩

/-
  An entry that stays when the level falls is of that level or
  below, or something needs its name.
-/
theorem purgeEntry_cases
    {referenced : Name → Bool}
    {alive : SlotId → Bool}
    {level : UInt32}
    {e e' : NameEntry}
    (h : purgeEntry referenced alive level e = some e') :
    (e.level ≤ level ∧ e' = e) ∨
      (level < e.level ∧ e' = ⟨e.name, level, none⟩ ∧
        (e.name.systemIndex.isSome = true ∨
          referenced e.name = true ∨
          e.hint.any alive = true)) := by
  unfold purgeEntry at h
  split at h
  next hLow =>
    simp only [Option.some.injEq] at h
    exact .inl ⟨hLow, h.symm⟩
  next hHigh =>
    split at h
    next hNeeded =>
      simp only [Option.some.injEq] at h
      simp only [Bool.or_eq_true, or_assoc] at hNeeded
      exact .inr ⟨Nat.lt_of_not_le hHigh, h.symm, hNeeded⟩
    next => contradiction

/- What stays when the save level falls keeps its name. -/
theorem name_of_purgeEntry
    {referenced : Name → Bool}
    {alive : SlotId → Bool}
    {level : UInt32}
    {e e' : NameEntry}
    (h : purgeEntry referenced alive level e = some e') :
    e'.name = e.name := by
  rcases purgeEntry_cases h with ⟨-, rfl⟩ | ⟨-, rfl, -⟩
  all_goals rfl

/- The entries that stay are made from those there were. -/
theorem mem_entries_purge
    {t : NameTable}
    {referenced : Name → Bool}
    {alive : SlotId → Bool}
    {level : UInt32}
    {e' : NameEntry} :
    e' ∈ (t.purge referenced alive level).entries ↔
      ∃ e ∈ t.entries,
        purgeEntry referenced alive level e = some e' := by
  change e' ∈ (t.filterMap _).entries ↔ _
  rw [entries_filterMap, List.mem_filterMap]

/- What is not collected stays as it is. -/
theorem eq_of_collectEntry
    {referenced : Name → Bool}
    {e e' : NameEntry}
    (h : collectEntry referenced e = some e') :
    e' = e := by
  unfold collectEntry at h
  split at h
  · simp only [Option.some.injEq] at h
    exact h.symm
  · contradiction

/- The entries that are not collected are those in use. -/
theorem mem_entries_collect
    {t : NameTable}
    {referenced : Name → Bool}
    {e : NameEntry} :
    e ∈ (t.collect referenced).entries ↔
      e ∈ t.entries ∧
        (e.name.systemIndex.isSome = true ∨
          referenced e.name = true) := by
  unfold collect
  rw [entries_filterMap, List.mem_filterMap]
  constructor
  · rintro ⟨e', he', hEntry⟩
    have hSame := eq_of_collectEntry hEntry
    subst hSame
    refine ⟨he', ?_⟩
    unfold collectEntry at hEntry
    split at hEntry
    next hUsed => exact Bool.or_eq_true_iff.mp hUsed
    next => contradiction
  · rintro ⟨he, hUsed⟩
    refine ⟨e, he, ?_⟩
    unfold collectEntry
    rw [if_pos (Bool.or_eq_true_iff.mpr hUsed)]

/- Purging keeps a table well formed. -/
theorem WellFormed.purge
    {t : NameTable}
    (hTable : t.WellFormed)
    (referenced : Name → Bool)
    (alive : SlotId → Bool)
    (level : UInt32) :
    (t.purge referenced alive level).WellFormed := by
  refine WellFormed.setLevel ?_ level
  refine hTable.filterMap _
    (fun e e' h => name_of_purgeEntry h) ?_
  intro e _ hLevel
  simp [purgeEntry, hLevel]

/- Collecting keeps a table well formed. -/
theorem WellFormed.collect
    {t : NameTable}
    (hTable : t.WellFormed)
    (referenced : Name → Bool) :
    (t.collect referenced).WellFormed := by
  refine hTable.filterMap _ ?_ ?_
  · intro e e' h
    rw [eq_of_collectEntry h]
  · intro e hIndex _
    simp [collectEntry, hIndex]

/- A name that something refers to survives purging. -/
theorem Holds.purge
    {t : NameTable}
    {n : Name}
    (hn : t.Holds n)
    {referenced : Name → Bool}
    (hReferenced : referenced n = true)
    (alive : SlotId → Bool)
    (level : UInt32) :
    (t.purge referenced alive level).Holds n := by
  rcases hn with ⟨e, he, rfl⟩
  have hKept :
      ∃ e', purgeEntry referenced alive level e = some e' :=
    by
    unfold purgeEntry
    rw [hReferenced]
    split
    · exact ⟨e, rfl⟩
    · exact ⟨{ e with level := level, hint := none },
        by simp⟩
  rcases hKept with ⟨e', hEntry⟩
  exact ⟨e', mem_entries_purge.mpr ⟨e, he, hEntry⟩,
    name_of_purgeEntry hEntry⟩

/- A name that something refers to is not collected. -/
theorem Holds.collect
    {t : NameTable}
    {n : Name}
    (hn : t.Holds n)
    {referenced : Name → Bool}
    (hReferenced : referenced n = true) :
    (t.collect referenced).Holds n := by
  rcases hn with ⟨e, he, rfl⟩
  exact ⟨e, mem_entries_collect.mpr ⟨he, .inr hReferenced⟩,
    rfl⟩

end NameTable

end PostScript
