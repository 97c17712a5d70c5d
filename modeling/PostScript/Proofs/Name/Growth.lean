import PostScript.Proofs.Name.WellFormed

/-
  This file follows the names that a table gives for bytes
  while more names are made: what was found before is found
  as before, and what is made is found from then on.

  Key definitions include:
    * `NameTable.Grows`

  Main results:
    * `NameTable.lookup_internWithin`
    * `NameTable.grows_internWithin`
-/

namespace PostScript.NameTable

variable {t t' t'' : NameTable}

------------------------------------------------------------
-- Looking Up
------------------------------------------------------------

/- A name is looked up in its bucket. -/
theorem lookup_eq
    (t : NameTable)
    (bytes : Bytes) :
    t.lookup bytes =
      ((t.bucket (bucketOf bytes)).reverse.find?
        (fun e => e.name.bytes == bytes)).map
          NameEntry.name :=
  rfl

/- A new entry hides what had its bytes, and nothing else. -/
theorem lookup_link
    (t : NameTable)
    (e : NameEntry)
    (bytes : Bytes) :
    (t.link e).lookup bytes =
      if e.name.bytes = bytes then
        some e.name
      else
        t.lookup bytes := by
  rw [lookup_eq, lookup_eq, bucket_link]
  by_cases hBytes : e.name.bytes = bytes
  · rw [if_pos hBytes, hBytes, if_pos rfl,
      List.reverse_append]
    simp [hBytes]
  · rw [if_neg hBytes]
    split
    next hBucket =>
      rw [List.reverse_append]
      simp [hBytes]
    next => rfl

/- The name that was made is found. -/
theorem lookup_internWithin
    {limit : Nat}
    {bytes : Bytes}
    {n : Name}
    (h : t.internWithin limit bytes = (.ok n, t')) :
    t'.lookup bytes = some n := by
  rcases t.internWithin_cases limit bytes with
    ⟨-, h'⟩ | ⟨m, -, hLookup, h'⟩ | ⟨-, -, h'⟩
  · rw [h'] at h
    simp at h
  · rw [h'] at h
    simp only [Prod.mk.injEq, Except.ok.injEq] at h
    rcases h with ⟨rfl, rfl⟩
    exact hLookup
  · rw [h'] at h
    simp only [Prod.mk.injEq, Except.ok.injEq] at h
    rcases h with ⟨rfl, rfl⟩
    rw [lookup_link, if_pos rfl]

/- A name that is not too long can be made. -/
theorem internWithin_ok
    (t : NameTable)
    {limit : Nat}
    {bytes : Bytes}
    (hShort : bytes.size ≤ limit) :
    ∃ n t', t.internWithin limit bytes = (.ok n, t') := by
  rcases t.internWithin_cases limit bytes with
    ⟨hLong, -⟩ | ⟨n, -, -, h⟩ | ⟨-, -, h⟩
  · omega
  · exact ⟨n, t, h⟩
  · exact ⟨_, _, h⟩

------------------------------------------------------------
-- Growth
------------------------------------------------------------

/- Whatever one table finds, the other finds as well. -/
def Grows
    (t t' : NameTable) : Prop :=
  ∀ bytes n, t.lookup bytes = some n →
    t'.lookup bytes = some n

/- A table finds what it finds. -/
theorem Grows.refl
    (t : NameTable) :
    t.Grows t :=
  fun _ _ h => h

/- Growth may be put together. -/
theorem Grows.trans
    (h : t.Grows t')
    (h' : t'.Grows t'') :
    t.Grows t'' :=
  fun bytes n hFound => h' bytes n (h bytes n hFound)

/- Making a name lets the table grow. -/
theorem grows_internWithin
    (t : NameTable)
    (limit : Nat)
    (bytes : Bytes) :
    t.Grows (t.internWithin limit bytes).2 := by
  rcases t.internWithin_cases limit bytes with
    ⟨-, h⟩ | ⟨m, -, -, h⟩ | ⟨-, hNone, h⟩
  · rw [h]
    exact .refl t
  · rw [h]
    exact .refl t
  · rw [h]
    intro other n hFound
    have hOther : bytes ≠ other := by
      rintro rfl
      rw [hNone] at hFound
      contradiction
    rw [lookup_link, if_neg hOther]
    exact hFound

end PostScript.NameTable
