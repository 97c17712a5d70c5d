import PostScript.Proofs.Sequence.Header
import PostScript.Sequence.Writing

/-
  This file describes where records and text stand while a
  sequence is written. Filling in objects writes their own
  records, the space between the old and the new bottom and
  the space between the new and the old top, and nothing else.

  Key definitions include:
    * `Sequence.Arena.Written`
    * `Sequence.Arena.Grows`

  Main results:
    * `Sequence.Writer.fillObject_grows`
    * `Sequence.Writer.fillObjects_grows`
-/

namespace PostScript

------------------------------------------------------------
-- Records
------------------------------------------------------------

/- A record takes eight bytes. -/
theorem Record.length_bytes
    (order : ByteOrder)
    (r : Record) :
    (r.bytes order).length = recordSize := by
  simp [Record.bytes, ByteOrder.bytes16, ByteOrder.bytes32,
    ByteOrder.length_bytes, recordSize]

/- A number of bytes or elements fits a record. -/
theorem Record.toNat_length
    {count : Nat}
    (hCount : count ≤ Sequence.maxRecordLength) :
    (UInt16.ofNat count).toNat = count := by
  unfold Sequence.maxRecordLength at hCount
  rw [UInt16.toNat_ofNat']
  omega

/- A record of any type is read back. -/
theorem Record.ofBytes_bytes
    (order : ByteOrder)
    {r : Record}
    (type : RecordType)
    (hType : r.type = type.code) :
    Record.ofBytes order (r.bytes order) = .ok r := by
  rcases r with ⟨_, executable, length, value⟩
  dsimp only at hType
  subst hType
  have hTwo : (order.bytes16 length).length = 2 :=
    order.length_bytes 2 length.toNat
  have hLength :
      (order.bytes16 length ++ order.bytes32 value).take 2 =
        order.bytes16 length := by
    rw [← hTwo, List.take_left]
  have hValue :
      (order.bytes16 length ++ order.bytes32 value).drop 2 =
        order.bytes32 value := by
    rw [← hTwo, List.drop_left]
  have hFirst :
      (type.code ||| (if executable then 0x80 else 0)) &&&
          0x7f = type.code ∧
        decide ((type.code |||
          (if executable then 0x80 else 0)) ≥ 0x80) =
            executable := by
    cases type <;> cases executable <;> decide
  unfold Record.bytes Record.ofBytes
  simp only [bne_self_eq_false, Bool.false_eq_true,
    if_false, hLength, hValue, order.word16_bytes16,
    order.word32_bytes32, hFirst.1, hFirst.2]

namespace Sequence

namespace Arena

------------------------------------------------------------
-- Putting Bytes
------------------------------------------------------------

/- Putting bytes does not change the size. -/
theorem size_put
    (data : Bytes)
    (offset : Nat)
    (bs : List UInt8) :
    (put data offset bs).size = data.size := by
  induction bs generalizing data offset with
  | nil => rfl
  | cons b bs ih =>
      rw [put, ih, Array.size_setIfInBounds]

/- Bytes are put nowhere but from their offset on. -/
theorem getElem?_put_of_outside
    (data : Bytes)
    (offset : Nat)
    (bs : List UInt8)
    {i : Nat}
    (hOutside : i < offset ∨ offset + bs.length ≤ i) :
    (put data offset bs)[i]? = data[i]? := by
  induction bs generalizing data offset with
  | nil => rfl
  | cons b bs ih =>
      rw [List.length_cons] at hOutside
      rw [put, ih _ _ (by omega)]
      exact Array.getElem?_setIfInBounds_ne (by omega)

/- Bytes that fit stand where they were put. -/
theorem getElem?_put
    (data : Bytes)
    (offset : Nat)
    (bs : List UInt8)
    (hFits : offset + bs.length ≤ data.size)
    {j : Nat}
    (hj : j < bs.length) :
    (put data offset bs)[offset + j]? = bs[j]? := by
  induction bs generalizing data offset j with
  | nil => contradiction
  | cons b bs ih =>
      rw [List.length_cons] at hFits hj
      rw [put]
      cases j with
      | zero =>
          rw [getElem?_put_of_outside _ _ _ (by omega)]
          exact Array.getElem?_setIfInBounds_self_of_lt
            (by omega)
      | succ j =>
          have hSize :
              offset + 1 + bs.length ≤
                (data.setIfInBounds offset b).size := by
            rw [Array.size_setIfInBounds]
            omega
          have hHere := ih _ (offset + 1) hSize
            (Nat.lt_of_succ_lt_succ hj)
          rw [Nat.add_right_comm offset 1 j] at hHere
          rw [List.getElem?_cons_succ]
          exact hHere

/- What stands at an offset is what is cut out there. -/
theorem toList_extract_eq
    {data : Bytes}
    {offset : Nat}
    {bs : List UInt8}
    (hStands :
      ∀ j, j < bs.length → data[offset + j]? = bs[j]?) :
    (data.extract offset (offset + bs.length)).toList =
      bs := by
  apply List.ext_getElem?
  intro j
  rw [Array.getElem?_toList, Array.getElem?_extract]
  by_cases hj : j < bs.length
  · have hHere := hStands j hj
    rw [List.getElem?_eq_getElem hj] at hHere
    have hIn : offset + j < data.size :=
      (Array.getElem?_eq_some_iff.mp hHere).1
    rw [if_pos (by omega), hStands j hj]
  · rw [if_neg (by omega), List.getElem?_eq_none (by omega)]

------------------------------------------------------------
-- Written Space
------------------------------------------------------------

/-
  The space that is written when `count` records at an offset
  are filled in and the arena thereby changes.
-/
def Written
    (offset count : Nat)
    (a a' : Arena)
    (i : Nat) : Prop :=
  offset ≤ i ∧ i < offset + count * recordSize ∨
    a.bottom ≤ i ∧ i < a'.bottom ∨
    a'.top ≤ i ∧ i < a.top

/-
  How an arena changes when `count` records at an offset are
  filled in: the free space shrinks from both ends by whole
  records and by text, and other space stays as it is.
-/
structure Grows
    (offset count : Nat)
    (a a' : Arena) : Prop where
  size : a'.data.size = a.data.size
  bottom : a.bottom ≤ a'.bottom
  apart : a'.bottom ≤ a'.top
  top : a'.top ≤ a.top
  aligned : a'.bottom % recordSize = a.bottom % recordSize
  frame :
    ∀ i, ¬ Written offset count a a' i →
      a'.data[i]? = a.data[i]?

/- Nothing is written for no records. -/
theorem Grows.refl
    (offset : Nat)
    {a : Arena}
    (hApart : a.bottom ≤ a.top) :
    Grows offset 0 a a :=
  ⟨rfl, Nat.le_refl _, hApart, Nat.le_refl _, rfl,
    fun _ _ => rfl⟩

/- Filling in records one after another. -/
theorem Grows.trans
    {offset m n : Nat}
    {a b c : Arena}
    (hFirst : Grows offset m a b)
    (hNext : Grows (offset + m * recordSize) n b c) :
    Grows offset (m + n) a c := by
  have hBottom := hFirst.bottom
  have hTop := hFirst.top
  have hBottom' := hNext.bottom
  have hTop' := hNext.top
  constructor
  case size => exact hNext.size.trans hFirst.size
  case bottom => exact Nat.le_trans hBottom hBottom'
  case apart => exact hNext.apart
  case top => exact Nat.le_trans hTop' hTop
  case aligned => exact hNext.aligned.trans hFirst.aligned
  case frame =>
    intro i hi
    unfold Written recordSize at hi
    have hLate : ¬ Written (offset + m * recordSize) n b c i :=
      by
      unfold Written recordSize
      omega
    have hEarly : ¬ Written offset m a b i := by
      unfold Written recordSize
      omega
    rw [hNext.frame i hLate, hFirst.frame i hEarly]

/- Putting a record writes its own eight bytes. -/
theorem Grows.putRecord
    {a a' : Arena}
    (hText : Grows 0 0 a a')
    (order : ByteOrder)
    (offset : Nat)
    (r : Record) :
    Grows offset 1 a (a'.putRecord order offset r) := by
  constructor
  case size =>
    exact (size_put _ _ _).trans hText.size
  case bottom => exact hText.bottom
  case apart => exact hText.apart
  case top => exact hText.top
  case aligned => exact hText.aligned
  case frame =>
    intro i hi
    have hOutside :
        i < offset ∨
          offset + (r.bytes order).length ≤ i := by
      rw [Record.length_bytes]
      unfold Written at hi
      omega
    have hOld : ¬ Written 0 0 a a' i := by
      intro hi'
      apply hi
      rcases hi' with hi' | hi'
      · omega
      · exact .inr hi'
    exact (getElem?_put_of_outside _ _ _ hOutside).trans
      (hText.frame i hOld)

/- Putting text writes the space that it takes. -/
theorem putText_grows
    {text : Bytes}
    {a a' : Arena}
    {start : Nat}
    (hPut : a.putText text = .ok (start, a'))
    (hApart : a.bottom ≤ a.top) :
    Grows 0 0 a a' := by
  unfold putText at hPut
  split at hPut
  · simp only [Except.ok.injEq, Prod.mk.injEq] at hPut
    rcases hPut with ⟨-, rfl⟩
    exact Grows.refl 0 hApart
  · split at hPut
    · contradiction
    next hRoom =>
      simp only [Except.ok.injEq, Prod.mk.injEq] at hPut
      rcases hPut with ⟨-, rfl⟩
      constructor
      case size => exact size_put _ _ _
      case bottom => exact Nat.le_refl _
      case apart =>
        dsimp only
        omega
      case top => exact Nat.sub_le _ _
      case aligned => rfl
      case frame =>
        intro i hi
        apply getElem?_put_of_outside
        unfold Written at hi
        dsimp only at hi
        rw [Array.length_toList]
        omega

/- A block is taken at the bottom if it fits. -/
theorem takeRecords_ok
    {a b : Arena}
    {count start : Nat}
    (hTake : a.takeRecords count = .ok (start, b)) :
    start = a.bottom ∧
      b = { a with bottom := a.bottom + count * recordSize } ∧
      a.bottom + count * recordSize ≤ a.top := by
  unfold takeRecords at hTake
  dsimp only at hTake
  split at hTake
  · contradiction
  next hRoom =>
    simp only [Except.ok.injEq, Prod.mk.injEq] at hTake
    exact ⟨hTake.1.symm, hTake.2.symm,
      Nat.le_of_not_lt hRoom⟩

end Arena

------------------------------------------------------------
-- Filling
------------------------------------------------------------

namespace Writer

variable {w : Writer}

/- The record of a text refers to where it is put. -/
theorem textRecord_ok
    {type : RecordType}
    {executable : Bool}
    {text : Bytes}
    {a a' : Arena}
    {r : Record}
    (hRecord :
      textRecord type executable text a = .ok (r, a')) :
    ∃ start, a.putText text = .ok (start, a') ∧
      r = ⟨type.code, executable, UInt16.ofNat text.size,
        UInt32.ofNat start⟩ := by
  unfold textRecord at hRecord
  cases hPut : a.putText text with
  | error cause =>
      rw [hPut] at hRecord
      contradiction
  | ok found =>
      rcases found with ⟨start, a''⟩
      rw [hPut] at hRecord
      simp only [Except.ok.injEq, Prod.mk.injEq] at hRecord
      rcases hRecord with ⟨rfl, rfl⟩
      exact ⟨start, rfl, rfl⟩

/- The record of an atom takes text and no more records. -/
theorem atomRecord_grows
    {executable : Bool}
    {a a' : Arena}
    {v : Atom}
    {r : Record}
    (hRecord : w.atomRecord executable a v = .ok (r, a'))
    (hApart : a.bottom ≤ a.top) :
    Arena.Grows 0 0 a a' := by
  have hText :
      ∀ {type : RecordType} {text : Bytes},
        textRecord type executable text a = .ok (r, a') →
          Arena.Grows 0 0 a a' := by
    intro type text h
    rcases textRecord_ok h with ⟨start, hPut, -⟩
    exact Arena.putText_grows hPut hApart
  have hNone : ∀ {r₀ : Record},
      (Except.ok (r₀, a) : Except Cause (Record × Arena)) =
        .ok (r, a') → Arena.Grows 0 0 a a' := by
    intro r₀ h
    simp only [Except.ok.injEq, Prod.mk.injEq] at h
    rcases h with ⟨-, rfl⟩
    exact Arena.Grows.refl 0 hApart
  unfold atomRecord at hRecord
  cases v with
  | infinity => contradiction
  | name n =>
      dsimp only at hRecord
      split at hRecord
      · exact hNone hRecord
      · exact hText hRecord
  | string bytes => exact hText hRecord
  | null | mark | integer v | boolean v | real v =>
      exact hNone hRecord

/-
  Filling in records changes the arena as their number says,
  by induction on the objects. The records must lie below the
  bottom.
-/
mutual

theorem fillObject_grows
    {offset : Nat}
    {a a' : Arena} :
    ∀ {o : Object},
      w.fillObject offset a o = .ok a' →
      offset + recordSize ≤ a.bottom →
      a.bottom ≤ a.top →
        Arena.Grows offset 1 a a'
  | .atom v attrs => by
      intro hFill hBelow hApart
      unfold fillObject at hFill
      cases hRecord :
          w.atomRecord attrs.executable a v with
      | error cause =>
          rw [hRecord] at hFill
          contradiction
      | ok found =>
          rcases found with ⟨r, b⟩
          rw [hRecord] at hFill
          simp only [Except.ok.injEq] at hFill
          subst hFill
          exact (atomRecord_grows hRecord hApart).putRecord
            _ offset r
  | .array es attrs => by
      intro hFill hBelow hApart
      unfold fillObject at hFill
      cases hTake : a.takeRecords es.length with
      | error cause =>
          rw [hTake] at hFill
          contradiction
      | ok found =>
          rcases found with ⟨start, b⟩
          rw [hTake] at hFill
          rcases Arena.takeRecords_ok hTake with
            ⟨rfl, rfl, hRoom⟩
          have hNested :=
            fillObjects_grows hFill (Nat.le_refl _) hRoom
          have hBottom := hNested.bottom
          simp only [Arena.putRecord] at hBottom
          constructor
          case size =>
            exact hNested.size.trans (Arena.size_put _ _ _)
          case bottom => omega
          case apart => exact hNested.apart
          case top => exact hNested.top
          case aligned =>
            rw [hNested.aligned]
            exact Nat.add_mul_mod_self_right _ _ _
          case frame =>
            intro i hi
            unfold Arena.Written at hi
            rw [hNested.frame i (by
              simp only [Arena.Written, Arena.putRecord]
              omega)]
            apply Arena.getElem?_put_of_outside
            rw [Record.length_bytes]
            omega

theorem fillObjects_grows
    {offset : Nat}
    {a a' : Arena} :
    ∀ {es : List Object},
      w.fillObjects offset a es = .ok a' →
      offset + es.length * recordSize ≤ a.bottom →
      a.bottom ≤ a.top →
        Arena.Grows offset es.length a a'
  | [] => by
      intro hFill hBelow hApart
      unfold fillObjects at hFill
      simp only [Except.ok.injEq] at hFill
      subst hFill
      exact Arena.Grows.refl offset hApart
  | e :: es => by
      intro hFill hBelow hApart
      rw [List.length_cons] at hBelow ⊢
      rw [Nat.succ_mul] at hBelow
      unfold fillObjects at hFill
      cases hHead : w.fillObject offset a e with
      | error cause =>
          rw [hHead] at hFill
          contradiction
      | ok b =>
          rw [hHead] at hFill
          dsimp only at hFill
          have hFirst :=
            fillObject_grows hHead (by omega) hApart
          have hBottom := hFirst.bottom
          have hNext :=
            fillObjects_grows hFill (by omega) hFirst.apart
          rw [Nat.add_comm es.length 1]
          apply hFirst.trans
          rw [Nat.one_mul]
          exact hNext

end

end Writer

end Sequence

end PostScript
