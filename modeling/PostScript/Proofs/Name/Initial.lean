import PostScript.Proofs.Name.WellFormed

/-
  This file shows that the table that a run begins with is
  well formed: it holds the system names in their order, and
  no two of them have the same bytes.

  Key definitions include:
    * `NameTable.Lists`

  Main results:
    * `nodup_systemNames`
    * `NameTable.lists_initial`
    * `NameTable.Reachable.wellFormed`
-/

namespace PostScript

/- No two system names have the same bytes. -/
theorem nodup_systemNames :
    systemNames.toList.Nodup := by
  refine List.Nodup.of_map
    (fun bytes => bigEndianValue bytes.toList) ?_
  set_option maxRecDepth 10000 in
  decide +kernel

/- There are 228 system names. -/
theorem size_systemNames :
    systemNames.size = 228 := by
  unfold systemNames systemNameList
  rw [List.size_toArray, List.length_map]
  rfl

/- The first of them. -/
theorem getElem?_systemNames_zero :
    systemNames[0]? = some (Bytes.ofText "abs") := by
  unfold systemNames systemNameList
  rw [List.getElem?_toArray, List.map_cons]
  rfl

/- System names are short enough for program text. -/
theorem size_le_of_mem_systemNames
    {bytes : Bytes}
    (h : bytes ∈ systemNames) :
    bytes.size ≤ maxNameLength := by
  have hAll :
      ∀ s ∈ systemNameList,
        (Bytes.ofText s).size ≤ maxNameLength := by
    decide +kernel
  unfold systemNames at h
  rw [List.mem_toArray] at h
  rcases List.mem_map.mp h with ⟨s, hs, rfl⟩
  exact hAll s hs

namespace NameTable

/- The entry that a system name begins with. -/
def systemEntry
    (x : Bytes × Nat) : NameEntry :=
  ⟨⟨x.2, x.1, some x.2⟩, 0, none⟩

/-
  A table that was made from system names alone, in their
  order.
-/
structure Lists
    (t : NameTable)
    (names : List Bytes) : Prop where
  placed :
    ∀ i : Fin bucketCount,
      ∀ e ∈ t.bucket i, bucketOf e.name.bytes = i
  listed :
    t.entries.Perm (names.zipIdx.map systemEntry)
  recorded :
    t.system.toList =
      names.zipIdx.map (fun x => (systemEntry x).name)
  counted :
    t.size = names.length
  next :
    t.nextId = names.length
  level :
    t.level = 0

/- The empty table lists nothing. -/
theorem lists_empty :
    empty.Lists [] := by
  have hBucket :
      ∀ i : Fin bucketCount, empty.bucket i = [] := by
    intro i
    unfold bucket empty
    rw [Fin.getElem_fin, Vector.getElem_replicate]
  constructor
  case placed =>
    intro i e he
    simp only [hBucket] at he
    exact absurd he List.not_mem_nil
  case listed =>
    have hNone : empty.entries = [] := by
      apply List.eq_nil_iff_forall_not_mem.mpr
      intro e he
      rcases (mem_entries empty e).mp he with ⟨i, hi⟩
      simp only [hBucket] at hi
      exact absurd hi List.not_mem_nil
    rw [hNone]
    exact List.Perm.refl []
  case recorded => rfl
  case counted => rfl
  case next => rfl
  case level => rfl

/- Making the next system name lists it behind the others. -/
theorem Lists.makeSystem
    {t : NameTable}
    {names : List Bytes}
    (h : t.Lists names)
    (bytes : Bytes) :
    (t.makeSystem bytes).Lists (names ++ [bytes]) := by
  have hSize : t.system.size = names.length := by
    rw [← Array.length_toList, h.recorded, List.length_map,
      List.length_zipIdx]
  have hMake :
      t.makeSystem bytes =
        { t.link (systemEntry (bytes, names.length)) with
          system := t.system.push
            (systemEntry (bytes, names.length)).name } := by
    unfold NameTable.makeSystem make systemEntry
    rw [hSize, h.next, h.level]
    rfl
  rw [hMake]
  constructor
  case placed =>
    intro i e he
    change e ∈ (t.link _).bucket i at he
    rw [bucket_link] at he
    split at he
    next hSame =>
      rcases List.mem_append.mp he with he | he
      · exact h.placed i e he
      · rw [List.mem_singleton.mp he]
        exact hSame
    next => exact h.placed i e he
  case listed =>
    rw [List.zipIdx_append, List.map_append]
    refine (t.entries_link _).trans ?_
    refine (List.Perm.cons _ h.listed).trans ?_
    simpa using
      (List.perm_append_singleton
        (systemEntry (bytes, names.length))
        (names.zipIdx.map systemEntry)).symm
  case recorded =>
    dsimp only
    rw [Array.toList_push, h.recorded, List.zipIdx_append,
      List.map_append]
    simp
  case counted =>
    change t.size + 1 = _
    rw [h.counted, List.length_append]
    rfl
  case next =>
    change t.nextId + 1 = _
    rw [h.next, List.length_append]
    rfl
  case level => exact h.level

/- Making names in turn lists them in turn. -/
theorem Lists.foldl
    {t : NameTable}
    {names : List Bytes}
    (h : t.Lists names)
    (more : List Bytes) :
    (more.foldl NameTable.makeSystem t).Lists
      (names ++ more) := by
  induction more generalizing t names with
  | nil =>
      rw [List.append_nil]
      exact h
  | cons bytes more ih =>
      have hNext := ih (h.makeSystem bytes)
      rw [List.append_assoc] at hNext
      exact hNext

/- The first table lists the system names. -/
theorem lists_initial :
    initial.Lists systemNames.toList := by
  have h := lists_empty.foldl systemNames.toList
  unfold initial
  rw [← Array.foldl_toList]
  exact h

/- System names begin without hints. -/
theorem hint_initial
    {e : NameEntry}
    (he : e ∈ initial.entries) :
    e.hint = none := by
  rw [lists_initial.listed.mem_iff] at he
  rcases List.mem_map.mp he with ⟨x, -, rfl⟩
  rfl

/- A table that lists the system names is well formed. -/
theorem Lists.wellFormed
    {t : NameTable}
    (h : t.Lists systemNames.toList) :
    t.WellFormed := by
  have hMem :
      ∀ e ∈ t.entries,
        ∃ i bytes, systemNames[i]? = some bytes ∧
          e = systemEntry (bytes, i) := by
    intro e he
    rw [h.listed.mem_iff, List.mem_map] at he
    rcases he with ⟨⟨bytes, i⟩, hi, rfl⟩
    rw [List.mem_zipIdx_iff_getElem?,
      Array.getElem?_toList] at hi
    exact ⟨i, bytes, hi, rfl⟩
  constructor
  case placed => exact h.placed
  case distinct =>
    rw [(h.listed.map _).nodup_iff, List.map_map]
    have hBytes :
        systemNames.toList.zipIdx.map
            ((fun e => e.name.bytes) ∘ systemEntry) =
          systemNames.toList :=
      List.zipIdx_map_fst 0 _
    rw [hBytes]
    exact nodup_systemNames
  case numbered =>
    rw [(h.listed.map _).nodup_iff, List.map_map]
    have hIds :
        systemNames.toList.zipIdx.map
            ((fun e => e.name.id) ∘ systemEntry) =
          List.range' 0 systemNames.toList.length :=
      List.zipIdx_map_snd 0 _
    rw [hIds]
    exact List.nodup_range'
  case fresh =>
    intro e he
    rcases hMem e he with ⟨i, bytes, hi, rfl⟩
    rcases Array.getElem?_eq_some_iff.mp hi with ⟨hLess, -⟩
    rw [h.next, Array.length_toList]
    exact hLess
  case counted =>
    rw [h.counted, h.listed.length_eq, List.length_map,
      List.length_zipIdx]
  case recorded =>
    intro i
    rw [← Array.getElem?_toList, h.recorded,
      List.getElem?_map, List.getElem?_zipIdx,
      Array.getElem?_toList]
    cases systemNames[i]? with
    | none => rfl
    | some bytes =>
        simp [systemEntry]
  case system =>
    intro i bytes hBytes
    refine ⟨systemEntry (bytes, i), ?_, rfl, rfl⟩
    rw [h.listed.mem_iff, List.mem_map]
    refine ⟨(bytes, i), ?_, rfl⟩
    rw [List.mem_zipIdx_iff_getElem?, Array.getElem?_toList]
    exact hBytes
  case indexed =>
    intro e he i hIndex
    rcases hMem e he with ⟨j, bytes, hj, rfl⟩
    have hSame : j = i := Option.some.inj hIndex
    rw [← hSame]
    exact hj

/- The first system name is in every table. -/
theorem WellFormed.holds_abs
    {t : NameTable}
    (hTable : t.WellFormed) :
    t.Holds ⟨0, Bytes.ofText "abs", some 0⟩ := by
  rcases hTable.system 0 _ getElem?_systemNames_zero with
    ⟨e, he, hName, -⟩
  exact ⟨e, he, hName⟩

/- Every table that can be reached is well formed. -/
theorem Reachable.wellFormed
    {t : NameTable}
    (h : t.Reachable) :
    t.WellFormed := by
  induction h with
  | initial => exact lists_initial.wellFormed
  | internWithin limit bytes _ ih =>
      exact ih.internWithin limit bytes
  | setHint n hint _ ih => exact ih.setHint n hint
  | setLevel level _ ih => exact ih.setLevel level
  | purge referenced alive level _ ih =>
      exact ih.purge referenced alive level
  | collect referenced _ ih => exact ih.collect referenced

end NameTable

end PostScript
