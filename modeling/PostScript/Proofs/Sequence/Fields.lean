import PostScript.Proofs.Name.Initial
import PostScript.Proofs.Numeric.FixedPoint
import PostScript.Proofs.Run
import PostScript.Proofs.Sequence.Layout
import PostScript.Proofs.Sequence.Measure

/-
  This file shows that a single record of a sequence is read
  back with all that it refers to. Reading follows writing:
  the end of the records is the bottom of the arena and the
  start of the text is its top.

  Key definitions include:
    * `Sequence.Arena.progress`
    * `Sequence.Arena.Ready`

  Main results:
    * `Sequence.Payload.record_of_stands`
    * `Sequence.Payload.text_of_putText`
    * `Sequence.Payload.reserve_of_takeRecords`
    * `Sequence.Payload.real_of_realFields`
    * `Sequence.Payload.name_of_atomRecord`
-/

namespace PostScript

namespace Sequence

------------------------------------------------------------
-- Progress
------------------------------------------------------------

/- How far a reader is when the arena was in a given state. -/
def Arena.progress
    (names : NameTable)
    (budget : Nat)
    (a : Arena) : Progress :=
  ⟨names, a.bottom, a.top, budget⟩

/- Putting a record takes no space. -/
theorem Arena.progress_putRecord
    (names : NameTable)
    (budget : Nat)
    (order : ByteOrder)
    (offset : Nat)
    (r : Record)
    (a : Arena) :
    (a.putRecord order offset r).progress names budget =
      a.progress names budget :=
  rfl

/-
  An arena of the size of a payload, in which `count` records
  at an offset have their place.
-/
structure Arena.Ready
    (p : Payload)
    (offset count : Nat)
    (a : Arena) : Prop where
  size : a.data.size = p.data.size
  below : offset + count * recordSize ≤ a.bottom
  apart : a.bottom ≤ a.top
  top : a.top ≤ p.data.size
  aligned : a.bottom % recordSize = 0

/-
  A payload shows what was written while the arena changed
  from one state to another.
-/
def Arena.Shown
    (p : Payload)
    (offset count : Nat)
    (a a' : Arena) : Prop :=
  ∀ i, Written offset count a a' i →
    p.data[i]? = a'.data[i]?

/- What was written first is not written over. -/
theorem Arena.Shown.first
    {p : Payload}
    {offset count : Nat}
    {a b c : Arena}
    (hShown : Shown p offset (1 + count) a c)
    (hBelow : offset + (1 + count) * recordSize ≤ a.bottom)
    (hFirst : Grows offset 1 a b)
    (hNext : Grows (offset + recordSize) count b c) :
    Shown p offset 1 a b := by
  have hApart := hFirst.apart
  have hBottom := hFirst.bottom
  have hBottom' := hNext.bottom
  have hApart' := hNext.apart
  have hTop' := hNext.top
  intro i hi
  rw [Nat.add_mul] at hBelow
  unfold Written at hi
  have hAll : Written offset (1 + count) a c i := by
    unfold Written
    rw [Nat.add_mul]
    omega
  have hOld :
      ¬ Written (offset + recordSize) count b c i := by
    unfold Written
    omega
  rw [hShown i hAll, hNext.frame i hOld]

/- What was written later is shown as well. -/
theorem Arena.Shown.next
    {p : Payload}
    {offset count : Nat}
    {a b c : Arena}
    (hShown : Shown p offset (1 + count) a c)
    (hFirst : Grows offset 1 a b) :
    Shown p (offset + recordSize) count b c := by
  have hBottom := hFirst.bottom
  have hTop := hFirst.top
  intro i hi
  apply hShown
  unfold Written at hi ⊢
  rw [Nat.add_mul]
  omega

/- Records that come later have their place as well. -/
theorem Arena.Ready.next
    {p : Payload}
    {offset count : Nat}
    {a b : Arena}
    (hReady : a.Ready p offset (1 + count))
    (hGrows : Grows offset 1 a b) :
    b.Ready p (offset + recordSize) count := by
  have hBelow := hReady.below
  have hBottom := hGrows.bottom
  rw [Nat.add_mul, Nat.one_mul] at hBelow
  exact ⟨hGrows.size.trans hReady.size, by omega,
    hGrows.apart, Nat.le_trans hGrows.top hReady.top,
    hGrows.aligned.trans hReady.aligned⟩

/- The elements of an array have their place at the bottom. -/
theorem Arena.Ready.block
    {p : Payload}
    {offset count start : Nat}
    {a b : Arena}
    (hReady : a.Ready p offset 1)
    (hTake : a.takeRecords count = .ok (start, b))
    (order : ByteOrder)
    (r : Record) :
    (b.putRecord order offset r).Ready p start count := by
  rcases takeRecords_ok hTake with ⟨rfl, rfl, hRoom⟩
  exact ⟨(size_put _ _ _).trans hReady.size, Nat.le_refl _,
    hRoom, hReady.top,
    (Nat.add_mul_mod_self_right _ _ _).trans hReady.aligned⟩

/- What belongs to the elements is shown as well. -/
theorem Arena.Shown.block
    {p : Payload}
    {offset count start : Nat}
    {a b a' : Arena}
    (hShown : Shown p offset 1 a a')
    (hTake : a.takeRecords count = .ok (start, b))
    {order : ByteOrder}
    {r : Record}
    (hGrows :
      Grows start count (b.putRecord order offset r) a') :
    Shown p start count (b.putRecord order offset r) a' := by
  rcases takeRecords_ok hTake with ⟨rfl, rfl, -⟩
  have hBottom := hGrows.bottom
  intro i hi
  apply hShown
  simp only [putRecord] at hBottom
  simp only [Written, putRecord] at hi
  unfold Written
  omega

/-
  A record that was put stands at its offset if it was not
  written over.
-/
theorem Arena.Ready.stands
    {p : Payload}
    {offset : Nat}
    {a a' b : Arena}
    (hReady : a.Ready p offset 1)
    (hShown : Shown p offset 1 a a')
    (hSize : b.data.size = a.data.size)
    (order : ByteOrder)
    (r : Record)
    (hKept :
      ∀ i, offset ≤ i → i < offset + recordSize →
        a'.data[i]? =
          (b.putRecord order offset r).data[i]?) :
    ∀ j, j < (r.bytes order).length →
      p.data[offset + j]? = (r.bytes order)[j]? := by
  intro j hj
  have hBelow := hReady.below
  have hApart := hReady.apart
  have hTop := hReady.top
  have hFits :
      offset + (r.bytes order).length ≤ b.data.size := by
    rw [hSize, hReady.size, Record.length_bytes]
    omega
  have hHere := hj
  rw [Record.length_bytes] at hHere
  rw [hShown _ (.inl ⟨by omega, by omega⟩),
    hKept _ (by omega) (by omega)]
  exact Arena.getElem?_put _ _ _ hFits hj

------------------------------------------------------------
-- Records and Text
------------------------------------------------------------

namespace Payload

variable {p : Payload}

/-
  A record that stands at an offset is read there, as long as
  records may be read at all.
-/
theorem record_within_budget
    {offset : Nat}
    {r : Record}
    (type : RecordType)
    (hType : r.type = type.code)
    (hStands :
      ∀ j, j < (r.bytes p.order).length →
        p.data[offset + j]? = (r.bytes p.order)[j]?)
    {st : Progress}
    (hBudget : 0 < st.budget) :
    p.record offset st =
      .ok r { st with budget := st.budget - 1 } := by
  have hRecord := Arena.toList_extract_eq hStands
  rw [Record.length_bytes] at hRecord
  have hLast := hStands 7 (by rw [Record.length_bytes]; decide)
  have hIn : ¬ p.data.size < offset + recordSize := by
    intro hOut
    have hNone : p.data[offset + 7]? = none :=
      Array.getElem?_eq_none (by unfold recordSize at hOut; omega)
    rw [hNone, eq_comm, List.getElem?_eq_none_iff,
      Record.length_bytes] at hLast
    contradiction
  unfold Payload.record
  rw [get_bind, if_neg (Nat.pos_iff_ne_zero.mp hBudget),
    set_bind, if_neg hIn, hRecord,
    Record.ofBytes_bytes _ type hType]
  rfl

/- It is read so when the reader is where an arena was. -/
theorem record_of_stands
    {offset : Nat}
    {r : Record}
    (type : RecordType)
    (hType : r.type = type.code)
    (hStands :
      ∀ j, j < (r.bytes p.order).length →
        p.data[offset + j]? = (r.bytes p.order)[j]?)
    (names : NameTable)
    {budget : Nat}
    (hBudget : 0 < budget)
    (a : Arena) :
    p.record offset (a.progress names budget) =
      .ok r (a.progress names (budget - 1)) := by
  have hHere : 0 < (a.progress names budget).budget :=
    hBudget
  exact record_within_budget type hType hStands hHere

/- Text that was put is read back. -/
theorem text_of_putText
    {a b : Arena}
    {text : Bytes}
    {start : Nat}
    (hPut : a.putText text = .ok (start, b))
    (hLength : text.size ≤ maxRecordLength)
    (hSize : a.data.size = p.data.size)
    (hSmall : p.data.size < 0xffffffff)
    (hTop : a.top ≤ p.data.size)
    (hData :
      ∀ i, b.top ≤ i → i < a.top →
        p.data[i]? = b.data[i]?)
    (type : RecordType)
    (executable : Bool)
    (names : NameTable)
    (budget : Nat) :
    p.text ⟨type.code, executable, UInt16.ofNat text.size,
        UInt32.ofNat start⟩ (a.progress names budget) =
      .ok text (b.progress names budget) := by
  have hCount := Record.toNat_length hLength
  unfold Arena.putText at hPut
  unfold Payload.text
  dsimp only
  rw [hCount]
  by_cases hEmpty : text.isEmpty = true
  · rw [if_pos hEmpty] at hPut
    simp only [Except.ok.injEq, Prod.mk.injEq] at hPut
    rcases hPut with ⟨-, rfl⟩
    have hNone : text = #[] := Array.isEmpty_iff.mp hEmpty
    subst hNone
    rfl
  · rw [if_neg hEmpty] at hPut
    split at hPut
    · contradiction
    next hRoom =>
      simp only [Except.ok.injEq, Prod.mk.injEq] at hPut
      rcases hPut with ⟨rfl, rfl⟩
      have hSome : ¬ text.size = 0 := by
        simpa using hEmpty
      have hStart :
          (UInt32.ofNat (a.top - text.size)).toNat =
            a.top - text.size := by
        rw [UInt32.toNat_ofNat']
        omega
      have hStands :
          ∀ j, j < text.toList.length →
            p.data[a.top - text.size + j]? =
              text.toList[j]? := by
        intro j hj
        have hHere := hj
        rw [Array.length_toList] at hHere
        rw [hData _ (by dsimp only; omega) (by omega)]
        apply Arena.getElem?_put _ _ _ _ hj
        rw [Array.length_toList, hSize]
        omega
      have hText := Arena.toList_extract_eq hStands
      rw [Array.length_toList] at hText
      have hInside :
          ¬ (a.top - text.size < a.bottom ∨
            p.data.size <
              a.top - text.size + text.size) := by
        omega
      have hLower :
          min a.top (a.top - text.size) =
            a.top - text.size :=
        Nat.min_eq_right (Nat.sub_le _ _)
      rw [if_neg hSome, hStart, get_bind]
      unfold Arena.progress
      dsimp only
      rw [if_neg hInside, set_bind, hLower,
        Array.toList_inj.mp hText]
      rfl

/- A block that was taken is reserved again. -/
theorem reserve_of_takeRecords
    {a b : Arena}
    {count start : Nat}
    (hTake : a.takeRecords count = .ok (start, b))
    (hCount : count ≤ maxRecordLength)
    (hSmall : p.data.size < 0xffffffff)
    (hApart : a.bottom ≤ a.top)
    (hTop : a.top ≤ p.data.size)
    (hAligned : a.bottom % recordSize = 0)
    (type : RecordType)
    (executable : Bool)
    (names : NameTable)
    (budget : Nat) :
    p.reserve ⟨type.code, executable, UInt16.ofNat count,
        UInt32.ofNat start⟩ (a.progress names budget) =
      .ok () (b.progress names budget) := by
  have hLength := Record.toNat_length hCount
  rcases Arena.takeRecords_ok hTake with ⟨rfl, rfl, hRoom⟩
  unfold Payload.reserve
  dsimp only
  rw [hLength]
  by_cases hNone : count = 0
  · subst hNone
    rw [if_pos rfl]
    unfold Arena.progress
    dsimp only
    rw [Nat.zero_mul, Nat.add_zero]
    rfl
  · have hStart :
        (UInt32.ofNat a.bottom).toNat = a.bottom := by
      rw [UInt32.toNat_ofNat']
      omega
    have hHigher :
        max a.bottom (a.bottom + count * recordSize) =
          a.bottom + count * recordSize :=
      Nat.max_eq_right (Nat.le_add_right _ _)
    rw [if_neg hNone, hStart, if_neg (not_not.mpr hAligned),
      get_bind]
    unfold Arena.progress
    dsimp only
    rw [if_neg (Nat.not_lt.mpr hRoom), hHigher]
    rfl

end Payload

------------------------------------------------------------
-- Atoms
------------------------------------------------------------

variable {w : Writer}
variable {p : Payload}

/- A real is read as it was written, bit for bit. -/
theorem Payload.real_of_realFields
    (v : Real)
    (hFinite : v.isFinite = true)
    (type : UInt8)
    (executable : Bool)
    (st : Progress) :
    Payload.real ⟨type, executable, (w.realFields v).1,
        (w.realFields v).2⟩ st =
      .ok ⟨v.bits, 0⟩ st := by
  have hPlain :
      Payload.real ⟨type, executable, 0, v.bits⟩ st =
        .ok ⟨v.bits, 0⟩ st := by
    unfold Payload.real
    rw [if_pos rfl, if_pos (by exact hFinite)]
    rfl
  unfold Writer.realFields
  cases w.format.reals with
  | ieee => exact hPlain
  | native =>
      dsimp only
      cases hFixed : FixedPoint.ofSingle? v.bits with
      | none => exact hPlain
      | some x =>
          have hScale := FixedPoint.scale_ofSingle? hFixed
          have hSame := FixedPoint.toSingle_ofSingle? hFixed
          have hNat :
              (UInt16.ofNat x.scale).toNat = x.scale := by
            rw [UInt16.toNat_ofNat']
            omega
          have hSome : ¬ UInt16.ofNat x.scale = 0 := by
            intro hZero
            have hToNat := congrArg UInt16.toNat hZero
            rw [hNat, UInt16.toNat_zero] at hToNat
            omega
          have hHigh : UInt16.ofNat x.scale ≤ 31 := by
            rw [UInt16.le_iff_toNat_le, hNat]
            exact hScale.2
          have hMantissa :
              x.mantissa.toUInt32.toInt32 = x.mantissa :=
            rfl
          unfold Payload.real
          dsimp only
          rw [if_neg hSome, if_pos hHigh, hNat, hMantissa,
            hSame]
          rfl

/- The number of a name leads back to the name. -/
theorem Payload.name_of_index
    {t : NameTable}
    (hTable : t.WellFormed)
    {n : Name}
    (hn : t.Holds n)
    {i : Nat}
    (hSystem : n.systemIndex = some i)
    (type : UInt8)
    (executable : Bool)
    (budget : Nat)
    (a : Arena) :
    p.name ⟨type, executable, systemNameLength,
        UInt32.ofNat i⟩ (a.progress t budget) =
      .ok n (a.progress t budget) := by
  have hLess := hTable.index_lt hn hSystem
  rw [size_systemNames] at hLess
  have hNat : (UInt32.ofNat i).toNat = i := by
    rw [UInt32.toNat_ofNat']
    omega
  unfold Payload.name
  rw [if_pos rfl, get_bind]
  unfold Arena.progress
  dsimp only
  rw [hNat, hTable.systemName?_index hn hSystem]
  rfl

/- The text of a name leads back to the name. -/
theorem Payload.name_of_putText
    {t : NameTable}
    (hTable : t.WellFormed)
    {n : Name}
    (hn : t.Holds n)
    (hSome : n.bytes.size ≠ 0)
    (hLong : n.bytes.size ≤ maxLongNameLength)
    {a b : Arena}
    {start : Nat}
    (hPut : a.putText n.bytes = .ok (start, b))
    (hSize : a.data.size = p.data.size)
    (hSmall : p.data.size < 0xffffffff)
    (hTop : a.top ≤ p.data.size)
    (hData :
      ∀ i, b.top ≤ i → i < a.top →
        p.data[i]? = b.data[i]?)
    (executable : Bool)
    (budget : Nat) :
    p.name ⟨RecordType.name.code, executable,
        UInt16.ofNat n.bytes.size, UInt32.ofNat start⟩
        (a.progress t budget) =
      .ok n (b.progress t budget) := by
  have hFits : n.bytes.size ≤ 0x7fff := hLong
  have hLength : n.bytes.size ≤ maxRecordLength := by
    unfold maxRecordLength
    omega
  have hCount := Record.toNat_length hLength
  have hNoIndex :
      ¬ UInt16.ofNat n.bytes.size = systemNameLength := by
    intro hSame
    have hNat := congrArg UInt16.toNat hSame
    rw [hCount] at hNat
    change n.bytes.size = 0xffff at hNat
    omega
  have hNotZero : ¬ UInt16.ofNat n.bytes.size = 0 := by
    intro hZero
    have hNat := congrArg UInt16.toNat hZero
    rw [hCount, UInt16.toNat_zero] at hNat
    exact hSome hNat
  have hText :=
    text_of_putText hPut hLength hSize hSmall hTop hData .name
      executable t budget
  have hFound := hTable.internWithin_of_holds hn hLong
  unfold Payload.name
  dsimp only
  rw [if_neg hNoIndex, if_neg hNotZero, hCount,
    if_neg (Nat.not_lt.mpr hLong), bind_of_ok hText]
  unfold Payload.internLong
  rw [get_bind]
  unfold Arena.progress NameTable.internLong
  dsimp only
  rw [hFound]
  rfl

/- A name is read as it was written, as number or text. -/
theorem Payload.name_of_atomRecord
    {t : NameTable}
    (hTable : t.WellFormed)
    {n : Name}
    (hn : t.Holds n)
    {x x' : Extent}
    {attrs : Attributes}
    (hMeasure : w.measureAtom x attrs (.name n) = .ok x')
    {executable : Bool}
    {a b : Arena}
    {r : Record}
    (hRecord :
      w.atomRecord executable a (.name n) = .ok (r, b))
    (hSize : a.data.size = p.data.size)
    (hSmall : p.data.size < 0xffffffff)
    (hTop : a.top ≤ p.data.size)
    (hData :
      ∀ i, b.top ≤ i → i < a.top →
        p.data[i]? = b.data[i]?)
    (budget : Nat) :
    r.type = RecordType.name.code ∧
      r.executable = executable ∧
      p.name r (a.progress t budget) =
        .ok n (b.progress t budget) := by
  unfold Writer.atomRecord at hRecord
  dsimp only at hRecord
  cases hIndex : w.nameIndex? n with
  | some i =>
      rw [hIndex] at hRecord
      simp only [Except.ok.injEq, Prod.mk.injEq] at hRecord
      rcases hRecord with ⟨rfl, rfl⟩
      have hSystem : n.systemIndex = some i := by
        unfold Writer.nameIndex? at hIndex
        split at hIndex
        · exact hIndex
        · contradiction
      exact ⟨rfl, rfl,
        name_of_index hTable hn hSystem _ _ budget a⟩
  | none =>
      rw [hIndex] at hRecord
      rcases Writer.textRecord_ok hRecord with
        ⟨start, hPut, rfl⟩
      rcases Writer.measureAtom_name hIndex hMeasure with
        ⟨hSome, hLong, -⟩
      exact ⟨rfl, rfl,
        name_of_putText hTable hn hSome hLong hPut hSize
          hSmall hTop hData executable budget⟩

end Sequence

end PostScript
