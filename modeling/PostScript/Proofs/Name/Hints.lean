import PostScript.Proofs.Name.WellFormed

/-
  This file describes a table of names in which one name
  remembers another cell: that is all that changes.

  Key definitions include:
    * `NameTable.rehint`

  Main results:
    * `NameTable.WellFormed.setHint_eq`
    * `NameTable.WellFormed.rehint_hint`
    * `NameTable.WellFormed.mem_entries_forget`
-/

namespace PostScript

namespace NameTable

/-
  The same table, but for the cell that one name remembers.
-/
def rehint
    (t : NameTable)
    (n : Name)
    (hint : Option SlotId) : NameTable :=
  { t with
    buckets := t.buckets.map (List.map (fun e =>
      if e.name.is n then e.withHint hint else e)) }

/- The entries are changed one by one. -/
theorem entries_rehint
    (t : NameTable)
    (n : Name)
    (hint : Option SlotId) :
    (t.rehint n hint).entries =
      t.entries.map (fun e =>
        if e.name.is n then e.withHint hint else e) := by
  simp [rehint, entries, Vector.toList_map, List.map_flatten]

/- Each bucket is changed alone. -/
theorem bucket_rehint
    (t : NameTable)
    (n : Name)
    (hint : Option SlotId)
    (i : Fin bucketCount) :
    (t.rehint n hint).bucket i =
      (t.bucket i).map (fun e =>
        if e.name.is n then e.withHint hint else e) := by
  simp [bucket, rehint]

/- Changes that leave each entry as it is change nothing. -/
theorem map_bucket_eq
    (t : NameTable)
    (f : NameEntry → NameEntry)
    (i : Fin bucketCount)
    (h : ∀ e ∈ t.entries, e ∈ t.bucket i → f e = e) :
    (t.bucket i).map f = t.bucket i := by
  have hSame : (t.bucket i).map f = (t.bucket i).map id := by
    apply List.map_congr_left
    intro e he
    exact h e ((t.mem_entries e).mpr ⟨i, he⟩) he
  rw [hSame, List.map_id]

/- Entries are old or remember the new cell. -/
theorem mem_entries_setHint
    {t : NameTable}
    {n : Name}
    {hint : Option SlotId}
    {e' : NameEntry}
    (he' : e' ∈ (t.setHint n hint).entries) :
    e' ∈ t.entries ∨
      ∃ e ∈ t.entries,
        e.name.is n = true ∧ e' = e.withHint hint := by
  rcases (mem_entries _ e').mp he' with ⟨i, hi⟩
  rw [bucket_setHint] at hi
  split at hi
  · rcases List.mem_map.mp hi with ⟨e, he, rfl⟩
    have heEntries := (t.mem_entries e).mpr ⟨i, he⟩
    split
    next hName => exact .inr ⟨e, heEntries, hName, rfl⟩
    next => exact .inl heEntries
  · exact .inl ((t.mem_entries e').mpr ⟨i, hi⟩)

namespace WellFormed

variable {t : NameTable}
variable (hTable : t.WellFormed)

include hTable

/- The hint of an entry is that of its name. -/
theorem hint_name
    {e : NameEntry}
    (he : e ∈ t.entries) :
    t.hint e.name = e.hint := by
  unfold hint
  rw [hTable.entry?_name he]
  rfl

/-
  A name that is in the table has no entry outside the bucket
  that its bytes belong to.
-/
theorem setHint_eq
    {n : Name}
    (hn : t.Holds n)
    (hint : Option SlotId) :
    t.setHint n hint = t.rehint n hint := by
  have hBuckets :
      (t.setHint n hint).buckets =
        (t.rehint n hint).buckets := by
    apply buckets_ext
    intro i
    rw [bucket_setHint, bucket_rehint]
    split
    next => rfl
    next hOther =>
      refine (t.map_bucket_eq _ i ?_).symm
      intro e he hBucket
      have hPlaced := hTable.placed i e hBucket
      rw [if_neg]
      intro hName
      rw [hTable.eq_of_is ⟨e, he, rfl⟩ hn hName] at hPlaced
      exact hOther hPlaced
  calc t.setHint n hint
      = { t with buckets := (t.setHint n hint).buckets } :=
        rfl
    _ = { t with buckets := (t.rehint n hint).buckets } := by
        rw [hBuckets]
    _ = t.rehint n hint := rfl

/- To remember the same cell again changes nothing. -/
theorem rehint_hint
    {n : Name}
    (hn : t.Holds n) :
    t.rehint n (t.hint n) = t := by
  have hBuckets :
      (t.rehint n (t.hint n)).buckets = t.buckets := by
    apply buckets_ext
    intro i
    rw [bucket_rehint]
    refine t.map_bucket_eq _ i ?_
    intro e he _
    split
    next hName =>
      rw [← hTable.eq_of_is ⟨e, he, rfl⟩ hn hName,
        hTable.hint_name he]
      rfl
    next => rfl
  calc t.rehint n (t.hint n)
      = { t with
          buckets := (t.rehint n (t.hint n)).buckets } := rfl
    _ = { t with buckets := t.buckets } := by rw [hBuckets]
    _ = t := rfl

/- A name that has forgotten its cell remembers none. -/
theorem hint_of_forget
    {n : Name}
    (hn : t.Holds n)
    {e : NameEntry}
    (he : e ∈ (t.setHint n none).entries)
    (hName : e.name.is n = true) :
    e.hint = none := by
  rw [hTable.setHint_eq hn, entries_rehint] at he
  rcases List.mem_map.mp he with ⟨e', -, rfl⟩
  by_cases hOld : e'.name.is n = true
  · rw [if_pos hOld]
    rfl
  · rw [if_neg hOld] at hName
    exact absurd hName hOld

end WellFormed

------------------------------------------------------------
-- Keys That Forget
------------------------------------------------------------

/-
  When keys forget their cells, an entry that still remembers
  one is old and none of the keys.
-/
theorem WellFormed.mem_entries_forget
    {t : NameTable}
    (hTable : t.WellFormed)
    (keys : List Name)
    (hKeys : ∀ key ∈ keys, t.Holds key)
    {e : NameEntry}
    (he :
      e ∈ (keys.foldl (fun t key => t.setHint key none)
        t).entries)
    {slot : SlotId}
    (hHint : e.hint = some slot) :
    e ∈ t.entries ∧
      ∀ key ∈ keys, e.name.is key = false := by
  induction keys generalizing t with
  | nil => exact ⟨he, fun key hKey => nomatch hKey⟩
  | cons key keys ih =>
      rcases List.forall_mem_cons.mp hKeys with
        ⟨hKey, hRest⟩
      rcases ih (hTable.setHint key none)
        (fun m hm =>
          (t.holds_setHint key m none).mpr (hRest m hm))
        he with ⟨heNext, hOther⟩
      have hName : e.name.is key = false := by
        apply Bool.eq_false_iff.mpr
        intro hName
        rw [hTable.hint_of_forget hKey heNext hName] at hHint
        contradiction
      refine ⟨?_, List.forall_mem_cons.mpr ⟨hName, hOther⟩⟩
      rcases mem_entries_setHint heNext with
        heOld | ⟨e', -, -, rfl⟩
      · exact heOld
      · contradiction

end NameTable

end PostScript
