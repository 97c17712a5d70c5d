import PostScript.Proofs.Sequence.Contents
import PostScript.Proofs.Sequence.Fields

/-
  This file describes sequences of a single record that names
  something to be evaluated at once, by its text or by its
  number, and shows what they are read as: a procedure with
  the value of the name as its only element.

  Key definitions include:
    * `procedureOf`
    * `Sequence.Single`
    * `Sequence.Refers`

  Main results:
    * `Sequence.Payload.name_of_refers`
    * `Sequence.readPayload_single`
    * `Sequence.Single.read`
-/

namespace PostScript

variable {ε : Type}
variable [Environment ε]

/- A procedure with one element, which may be missing. -/
def procedureOf
    (env : ε)
    (missing : Cause) : Option Object → Except Cause Object
  | none => .error missing
  | some v => makeArray env true [v]

namespace Sequence

------------------------------------------------------------
-- Single Records
------------------------------------------------------------

/-
  Data that begins with a sequence of one record, behind which
  there is a zone for text.
-/
structure Single
    (data : Bytes)
    (h : Header)
    (r : Record)
    (zone : Bytes) : Prop where
  writable : h.Writable
  count : h.count = 1
  length : h.length.toNat = h.size + (recordSize + zone.size)
  bytes :
    ∃ rest,
      data =
        h.bytes.toArray ++
          (((r.bytes h.format.order).toArray ++ zone) ++ rest)

/-
  A record refers to a name by the text of the name, which
  stands somewhere in the zone, or by its number.
-/
inductive Refers
    (zone : Bytes)
    (r : Record)
    (bytes : Bytes) : Prop where
  | text
      (before behind : Bytes)
      (hZone : zone = before ++ (bytes ++ behind))
      (hLength : r.length.toNat = bytes.size)
      (hValue : r.value.toNat = recordSize + before.size)
  | index
      (hLength : r.length = systemNameLength)
      (hSystem : systemNames[r.value.toNat]? = some bytes)

/- Bytes between others are cut out again. -/
theorem extract_between
    (before bytes behind : Bytes) :
    (before ++ (bytes ++ behind)).extract before.size
      (before.size + bytes.size) = bytes := by
  rw [Array.extract_append_right, Array.extract_append_left,
    Array.extract_size]

/- A record in front of a zone stands there. -/
theorem stands_front
    (order : ByteOrder)
    (r : Record)
    (zone : Bytes) :
    ∀ j, j < (r.bytes order).length →
      ((r.bytes order).toArray ++ zone)[0 + j]? =
        (r.bytes order)[j]? := by
  intro j hj
  have hIn : j < (r.bytes order).toArray.size := hj
  rw [Nat.zero_add, Array.getElem?_append_left hIn,
    List.getElem?_toArray]

------------------------------------------------------------
-- Names
------------------------------------------------------------

namespace Payload

variable {p : Payload}
variable {st : Progress}
variable {bytes : Bytes}
variable {t : NameTable}
variable {n : Name}

/- A short name is made as it is made for program text. -/
theorem internLong_of_intern
    (hShort : bytes.size ≤ maxNameLength)
    (hIntern : st.names.intern bytes = (.ok n, t)) :
    Payload.internLong bytes st =
      .ok n { st with names := t } := by
  have hLong : bytes.size ≤ maxLongNameLength :=
    hShort.trans (by decide)
  have hSame :
      st.names.internLong bytes = st.names.intern bytes := by
    unfold NameTable.internLong NameTable.intern
    unfold NameTable.internWithin
    rw [if_neg (Nat.not_lt.mpr hLong),
      if_neg (Nat.not_lt.mpr hShort)]
  unfold Payload.internLong
  rw [get_bind, hSame, hIntern]
  rfl

/- Text in the zone behind a record is found there. -/
theorem text_of_zone
    {r : Record}
    {before behind : Bytes}
    (hData :
      p.data =
        (r.bytes p.order).toArray ++
          (before ++ (bytes ++ behind)))
    (hSome : bytes.size ≠ 0)
    (hLength : r.length.toNat = bytes.size)
    (hValue : r.value.toNat = recordSize + before.size)
    (hEnd : st.recordsEnd ≤ recordSize) :
    p.text r st =
      .ok bytes
        { st with
          textStart :=
            min st.textStart (recordSize + before.size) } := by
  have hFront :
      ((r.bytes p.order).toArray ++ before).size =
        recordSize + before.size := by
    rw [Array.size_append, List.size_toArray,
      Record.length_bytes]
  have hCut :=
    extract_between ((r.bytes p.order).toArray ++ before)
      bytes behind
  rw [Array.append_assoc, ← hData, hFront] at hCut
  have hInside :
      ¬ (recordSize + before.size < st.recordsEnd ∨
        p.data.size <
          recordSize + before.size + bytes.size) := by
    rw [hData, ← Array.append_assoc, Array.size_append,
      hFront, Array.size_append]
    omega
  unfold Payload.text
  dsimp only
  rw [hLength, if_neg hSome, hValue, get_bind,
    if_neg hInside, set_bind, hCut]
  rfl

/-
  What a record refers to is the name that has the bytes, and
  the table is the one in which the name has been made.
-/
theorem name_of_refers
    {r : Record}
    {zone : Bytes}
    (hTable : st.names.WellFormed)
    (hSome : bytes.size ≠ 0)
    (hShort : bytes.size ≤ maxNameLength)
    (hRefers : Refers zone r bytes)
    (hData : p.data = (r.bytes p.order).toArray ++ zone)
    (hEnd : st.recordsEnd ≤ recordSize)
    (hIntern : st.names.intern bytes = (.ok n, t)) :
    ∃ st', p.name r st = .ok n st' ∧ st'.names = t := by
  cases hRefers with
  | text before behind hZone hLength hValue =>
      subst hZone
      have hFits : bytes.size ≤ 127 := hShort
      have hText :=
        text_of_zone hData hSome hLength hValue hEnd
      have hNoIndex : ¬ r.length = systemNameLength := by
        intro hSame
        rw [hSame] at hLength
        change 0xffff = bytes.size at hLength
        omega
      have hNotZero : ¬ r.length = 0 := by
        intro hZero
        rw [hZero] at hLength
        exact hSome hLength.symm
      have hLong : ¬ maxLongNameLength < r.length.toNat := by
        rw [hLength]
        exact Nat.not_lt.mpr (hShort.trans (by decide))
      have hMade :=
        (bind_of_ok hText Payload.internLong).trans
          (internLong_of_intern hShort hIntern)
      refine ⟨{ st with
        names := t
        textStart :=
          min st.textStart (recordSize + before.size) }, ?_, rfl⟩
      unfold Payload.name
      rw [if_neg hNoIndex, if_neg hNotZero, if_neg hLong]
      exact hMade
  | index hLength hSystem =>
      rcases hTable.system _ _ hSystem with ⟨e, he, hName, -⟩
      have hHeld :
          st.names.Holds
            ⟨r.value.toNat, bytes, some r.value.toNat⟩ :=
        ⟨e, he, hName⟩
      have hKnown : st.names.intern bytes = _ :=
        hTable.internWithin_of_holds hHeld hShort
      rw [hIntern] at hKnown
      simp only [Prod.mk.injEq, Except.ok.injEq] at hKnown
      rcases hKnown with ⟨rfl, rfl⟩
      refine ⟨st, ?_, rfl⟩
      unfold Payload.name
      rw [if_pos hLength, get_bind,
        hTable.systemName?_eq hSystem]
      rfl

end Payload

------------------------------------------------------------
-- Sequences
------------------------------------------------------------

section Reading

variable {names t : NameTable}
variable {n : Name}
variable {bytes zone : Bytes}
variable {h : Header}
variable {r : Record}

/- The value of a name, or the error that there is none. -/
theorem Payload.binding_eq
    (env : ε)
    (n : Name)
    (st : Progress) :
    Payload.binding env n st =
      match st.names.load env n with
      | (some v, t) => .ok v { st with names := t }
      | (none, t) =>
          .error (.unboundName n.bytes)
            { st with names := t } := by
  unfold Payload.binding
  rw [get_bind]
  rcases st.names.load env n with ⟨_ | v, t⟩ <;> rfl

/-
  One record that names what is to be evaluated at once makes
  a procedure of the value. The table is the one that looking
  up the value leaves.
-/
theorem readPayload_single
    (hTable : names.WellFormed)
    (env : ε)
    (hCount : h.count = 1)
    (hType : r.type = RecordType.immediateName.code)
    (hRefers : Refers zone r bytes)
    (hSome : bytes.size ≠ 0)
    (hShort : bytes.size ≤ maxNameLength)
    (hIntern : names.intern bytes = (.ok n, t)) :
    readPayload env h
        ((r.bytes h.format.order).toArray ++ zone) names =
      match procedureOf env (.unboundName bytes)
          (t.load env n).1 with
      | .ok o => .ok o (t.load env n).2
      | .error cause => .error cause (t.load env n).2 := by
  generalize hData :
    (r.bytes h.format.order).toArray ++ zone = data
  have hSize : data.size = recordSize + zone.size := by
    rw [← hData, Array.size_append, List.size_toArray,
      Record.length_bytes]
  have hNumber : h.count.toNat = 1 := by
    rw [hCount]
    rfl
  have hEnough : ¬ data.size < 1 * recordSize := by
    rw [hSize, Nat.one_mul]
    omega
  have hBytes : n.bytes = bytes :=
    (NameTable.holds_of_internWithin hIntern).2
  let p : Payload := ⟨data, h.format.order⟩
  -- The record is read, and the name that it refers to.
  have hBudget :
      0 < (Progress.start names 1 data.size).budget := by
    change 0 < data.size / recordSize
    rw [hSize]
    unfold recordSize
    omega
  have hStands := stands_front h.format.order r zone
  rw [hData] at hStands
  have hRecord :=
    Payload.record_within_budget (p := p) .immediateName
      hType hStands hBudget
  let start : Progress :=
    { Progress.start names 1 data.size with
      budget := data.size / recordSize - 1 }
  have hEnd : start.recordsEnd ≤ recordSize :=
    Nat.le_of_eq (Nat.one_mul recordSize)
  have hStart : start.names.intern bytes = (.ok n, t) :=
    hIntern
  rcases Payload.name_of_refers (p := p) hTable hSome hShort
      hRefers hData.symm hEnd hStart with
    ⟨st, hName, rfl⟩
  have hObject :
      object p env (block p env maxNesting) 0
          (Progress.start names 1 data.size) =
        Payload.binding env n st := by
    rw [object_of_record env _ hRecord .immediateName hType]
    exact bind_of_ok hName _
  rw [Payload.binding_eq, hBytes] at hObject
  -- It is the only element of the procedure.
  unfold readPayload
  rw [hNumber, if_neg hEnough]
  rcases hLoad : st.names.load env n with ⟨_ | v, t'⟩
  · rw [hLoad] at hObject
    have hRun :
        (block p env (maxNesting + 1) 0 1).run 1 data.size
            names =
          .error (.unboundName bytes) t' :=
      run_of_error (bind_of_error hObject _)
    exact bind_of_error hRun _
  · rw [hLoad] at hObject
    have hRun :
        (block p env (maxNesting + 1) 0 1).run 1 data.size
            names =
          .ok [v] t' :=
      run_of_ok (bind_of_ok hObject fun o =>
        objectsAfter (object p env (block p env maxNesting))
          (#[].push o) 0 recordSize)
    rw [bind_of_ok hRun]
    unfold procedureOf
    dsimp only
    cases makeArray env true [v] <;> rfl

/- A sequence of such a record is read alike. -/
theorem Single.read
    {data : Bytes}
    (hSingle : Single data h r zone)
    (hTable : names.WellFormed)
    (env : ε)
    (hType : r.type = RecordType.immediateName.code)
    (hRefers : Refers zone r bytes)
    (hSome : bytes.size ≠ 0)
    (hShort : bytes.size ≤ maxNameLength)
    (hIntern : names.intern bytes = (.ok n, t)) :
    Sequence.read env data names =
      match procedureOf env (.unboundName bytes)
          (t.load env n).1 with
      | .ok o => .ok (o, h.length.toNat) (t.load env n).2
      | .error cause => .error cause (t.load env n).2 := by
  rcases hSingle.bytes with ⟨rest, rfl⟩
  have hPayload :
      ((r.bytes h.format.order).toArray ++ zone).size =
        recordSize + zone.size := by
    rw [Array.size_append, List.size_toArray,
      Record.length_bytes]
  have hHead : h.bytes.toArray.size = h.size := by
    rw [List.size_toArray, Header.length_bytes]
  have hCut :=
    extract_between h.bytes.toArray
      ((r.bytes h.format.order).toArray ++ zone) rest
  rw [hPayload, hHead, ← hSingle.length] at hCut
  have hEnough :
      ¬ (h.bytes.toArray ++
        ((r.bytes h.format.order).toArray ++ zone ++
          rest)).size < h.length.toNat := by
    rw [Array.size_append, Array.size_append, hPayload, hHead,
      hSingle.length]
    omega
  have hRead :=
    readPayload_single hTable env hSingle.count hType hRefers
      hSome hShort hIntern
  unfold Sequence.read
  rw [hSingle.writable.parse_bytes]
  dsimp only
  rw [if_neg hEnough, hCut]
  cases hMade :
      procedureOf env (.unboundName bytes) (t.load env n).1 with
  | ok o =>
      rw [hMade] at hRead
      rw [bind_of_ok hRead]
      rfl
  | error cause =>
      rw [hMade] at hRead
      rw [bind_of_error hRead]

end Reading

end Sequence

end PostScript
