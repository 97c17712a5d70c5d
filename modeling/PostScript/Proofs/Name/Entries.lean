import PostScript.Name.Table

/-
  This file describes what the operations on a table of names
  do to its entries. A table is a list of buckets, and every
  operation works on one bucket or on each bucket alone.

  Key definitions include:
    * `NameTable.Holds`
    * `NameEntry.withHint`

  Main results:
    * `NameTable.entries_split`
    * `NameTable.entries_link`
    * `NameTable.entries_filterMap`
    * `NameTable.bucket_setHint`
-/

namespace PostScript

/- An entry that remembers another cell. -/
def NameEntry.withHint
    (e : NameEntry)
    (hint : Option SlotId) : NameEntry :=
  { e with hint := hint }

namespace Name

/- Being the same name is being equal in number. -/
theorem is_iff
    (a b : Name) :
    a.is b = true ↔ a.id = b.id := by
  simp [Name.is]

end Name

namespace NameTable

variable (t : NameTable)

/- The table has an entry for this very name. -/
def Holds
    (n : Name) : Prop :=
  ∃ e ∈ t.entries, e.name = n

------------------------------------------------------------
-- Buckets
------------------------------------------------------------

/- One bucket. -/
def bucket
    (i : Fin bucketCount) : List NameEntry :=
  t.buckets[i]

/- Tables may be compared bucket by bucket. -/
theorem buckets_ext
    {t t' : NameTable}
    (h : ∀ i, t.bucket i = t'.bucket i) :
    t.buckets = t'.buckets := by
  apply Vector.ext
  intro i hi
  exact h ⟨i, hi⟩

/- The entries are those of the buckets. -/
theorem mem_entries
    (e : NameEntry) :
    e ∈ t.entries ↔
      ∃ i : Fin bucketCount, e ∈ t.bucket i := by
  simp only [entries, List.mem_flatten, Vector.mem_toList_iff,
    Vector.mem_iff_getElem]
  constructor
  · rintro ⟨b, ⟨i, hi, rfl⟩, he⟩
    exact ⟨⟨i, hi⟩, he⟩
  · rintro ⟨i, he⟩
    exact ⟨t.bucket i, ⟨i.val, i.isLt, rfl⟩, he⟩

/-
  One bucket stands between the entries before and behind it,
  which do not change when only that bucket does.
-/
theorem entries_split
    (i : Fin bucketCount) :
    ∃ before behind,
      t.entries = before ++ t.bucket i ++ behind ∧
        ∀ (b : List NameEntry) (system : Array Name)
          (size : Nat) (level : UInt32) (nextId : Nat),
          entries ⟨t.buckets.set i b, system, size, level,
              nextId⟩ =
            before ++ b ++ behind := by
  have hIndex : i.val < t.buckets.toList.length := by
    simp
  refine ⟨(t.buckets.toList.take i).flatten,
    (t.buckets.toList.drop (i + 1)).flatten, ?_, ?_⟩
  · have hList :
        t.buckets.toList =
          t.buckets.toList.take i ++
            t.bucket i :: t.buckets.toList.drop (i + 1) := by
      have hSplit :=
        List.take_append_drop i.val t.buckets.toList
      rw [List.drop_eq_getElem_cons hIndex,
        Vector.getElem_toList] at hSplit
      exact hSplit.symm
    calc t.entries
        = t.buckets.toList.flatten := rfl
      _ = (t.buckets.toList.take i ++
            t.bucket i ::
              t.buckets.toList.drop (i + 1)).flatten :=
          congrArg List.flatten hList
      _ = _ := by simp
  · intro b system size level nextId
    simp [entries, Vector.toList_set,
      List.set_eq_take_append_cons_drop]

------------------------------------------------------------
-- New Entries
------------------------------------------------------------

/- A new entry is the only thing that linking adds. -/
theorem entries_link
    (e : NameEntry) :
    (t.link e).entries.Perm (e :: t.entries) := by
  rcases entries_split t (bucketOf e.name.bytes) with
    ⟨before, behind, hOld, hNew⟩
  unfold link
  rw [hNew, hOld, List.append_assoc, List.append_assoc,
    List.append_assoc]
  refine (List.Perm.append_left before ?_).trans
    List.perm_middle
  exact List.perm_middle

/- Linking adds to the bucket of the new entry alone. -/
theorem bucket_link
    (e : NameEntry)
    (i : Fin bucketCount) :
    (t.link e).bucket i =
      if bucketOf e.name.bytes = i then
        t.bucket i ++ [e]
      else
        t.bucket i := by
  simp only [bucket, link, Fin.getElem_fin, Vector.getElem_set,
    Fin.ext_iff]
  split
  next hSame => simp only [hSame]
  next => rfl

/- A new name has an entry, and the old names keep theirs. -/
theorem mem_entries_link
    (e e' : NameEntry) :
    e' ∈ (t.link e).entries ↔ e' = e ∨ e' ∈ t.entries := by
  rw [(t.entries_link e).mem_iff, List.mem_cons]

------------------------------------------------------------
-- Fewer Entries
------------------------------------------------------------

/- Filtering the buckets filters the entries. -/
theorem entries_filterMap
    (f : NameEntry → Option NameEntry) :
    (t.filterMap f).entries = t.entries.filterMap f := by
  simp [filterMap, entries, Vector.toList_map,
    List.filterMap_flatten]

/- Each bucket is filtered alone. -/
theorem bucket_filterMap
    (f : NameEntry → Option NameEntry)
    (i : Fin bucketCount) :
    (t.filterMap f).bucket i =
      (t.bucket i).filterMap f := by
  simp [bucket, filterMap]

/- What filtering takes away is taken from the size. -/
theorem size_filterMap
    (f : NameEntry → Option NameEntry)
    (hSize : t.size = t.entries.length) :
    (t.filterMap f).size =
      (t.filterMap f).entries.length := by
  have hKept :
      (t.entries.filterMap f).length =
        t.entries.countP (fun e => (f e).isSome) :=
    List.length_filterMap_eq_countP
  have hAll :=
    List.length_eq_countP_add_countP
      (fun e => (f e).isSome) (l := t.entries)
  rw [entries_filterMap, hKept]
  have hDropped :
      t.entries.countP (fun e => (f e).isNone) =
        t.entries.countP (fun e => ¬ (f e).isSome) := by
    apply List.countP_congr
    intro e he
    cases f e <;> simp
  simp only [filterMap, hSize, hDropped]
  omega

------------------------------------------------------------
-- Hints
------------------------------------------------------------

/- Only the bucket of a name can change with its hint. -/
theorem bucket_setHint
    (n : Name)
    (hint : Option SlotId)
    (i : Fin bucketCount) :
    (t.setHint n hint).bucket i =
      if bucketOf n.bytes = i then
        (t.bucket i).map
          (fun e => if e.name.is n then e.withHint hint else e)
      else
        t.bucket i := by
  simp only [bucket, setHint, Fin.getElem_fin, Vector.getElem_set,
    Fin.ext_iff, NameEntry.withHint]
  split
  next hSame => simp only [hSame]
  next => rfl

/-
  Whatever a hint does not change stays the same along the
  entries.
-/
theorem map_entries_setHint
    {α : Type}
    (f : NameEntry → α)
    (hf : ∀ e hint, f (e.withHint hint) = f e)
    (n : Name)
    (hint : Option SlotId) :
    (t.setHint n hint).entries.map f = t.entries.map f := by
  rcases entries_split t (bucketOf n.bytes) with
    ⟨before, behind, hOld, hNew⟩
  have hBucket :
      ((t.bucket (bucketOf n.bytes)).map (fun e =>
        if e.name.is n then e.withHint hint else e)).map f =
          (t.bucket (bucketOf n.bytes)).map f := by
    rw [List.map_map]
    apply List.map_congr_left
    intro e he
    simp only [Function.comp]
    split
    · exact hf e hint
    · rfl
  rw [show (t.setHint n hint).entries =
      before ++
        (t.bucket (bucketOf n.bytes)).map (fun e =>
          if e.name.is n then e.withHint hint else e) ++
        behind from hNew _ _ _ _ _]
  rw [hOld]
  simp only [List.map_append, hBucket]

end NameTable

end PostScript
