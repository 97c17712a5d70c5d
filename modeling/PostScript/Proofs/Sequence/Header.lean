import PostScript.Sequence.Header

/-
  This file shows that the header that is chosen for a payload
  is read back from its own bytes, whatever follows them.

  Key definitions include:
    * `Header.Writable`

  Main results:
    * `Header.forPayload_ok`
    * `Header.Writable.parse_bytes`
    * `Header.parse_bytes`
-/

namespace PostScript

/- A value of two bytes is written as two bytes. -/
theorem ByteOrder.bytes_two
    (order : ByteOrder)
    (v : Nat) :
    ∃ a b, order.bytes 2 v = [a, b] := by
  have hLength := order.length_bytes 2 v
  match h : order.bytes 2 v with
  | [a, b] => exact ⟨a, b, rfl⟩
  | [] | [_] | _ :: _ :: _ :: _ =>
      rw [h] at hLength
      simp at hLength

/- A value of four bytes is written as four bytes. -/
theorem ByteOrder.bytes_four
    (order : ByteOrder)
    (v : Nat) :
    ∃ a b c d, order.bytes 4 v = [a, b, c, d] := by
  have hLength := order.length_bytes 4 v
  match h : order.bytes 4 v with
  | [a, b, c, d] => exact ⟨a, b, c, d, rfl⟩
  | [] | [_] | [_, _] | [_, _, _] | _ :: _ :: _ :: _ :: _ :: _ =>
      rw [h] at hLength
      simp at hLength

namespace Header

/-
  What is true of a header that was chosen: it counts the
  objects and spans the payload, and its fields are in the
  range that its form can hold.
-/
theorem forPayload_ok
    {format : SequenceFormat}
    {count payload : Nat}
    {h : Header}
    (hHeader : forPayload format count payload = .ok h) :
    h.format = format ∧
      h.count.toNat = count ∧
      h.length.toNat = h.size + payload ∧
      payload < 0xffffffff ∧
      (h.extended = false →
        1 ≤ count ∧ count ≤ 255 ∧ h.length.toNat ≤ 0xffff) :=
    by
  unfold forPayload at hHeader
  split at hHeader
  · contradiction
  next hCount =>
    split at hHeader
    next hShort =>
      simp only [Except.ok.injEq] at hHeader
      subst hHeader
      unfold shortSize at hShort
      refine ⟨rfl, ?_, ?_, ?_, ?_⟩
      · rw [UInt16.toNat_ofNat']
        omega
      · change _ = shortSize + payload
        rw [UInt32.toNat_ofNat']
        unfold shortSize
        omega
      · omega
      · intro _
        rw [UInt32.toNat_ofNat']
        unfold shortSize
        omega
    next =>
      split at hHeader
      next hLong =>
        simp only [Except.ok.injEq] at hHeader
        subst hHeader
        unfold extendedSize at hLong
        refine ⟨rfl, ?_, ?_, ?_, ?_⟩
        · rw [UInt16.toNat_ofNat']
          omega
        · change _ = extendedSize + payload
          rw [UInt32.toNat_ofNat']
          unfold extendedSize
          omega
        · omega
        · intro hNot
          contradiction
      next => contradiction

/- A header has as many bytes as its form takes. -/
theorem length_bytes
    (h : Header) :
    h.bytes.length = h.size := by
  unfold bytes size
  split
  · simp [ByteOrder.bytes16, ByteOrder.bytes32,
      ByteOrder.length_bytes, extendedSize]
  · simp [ByteOrder.length_bytes, shortSize]

/- The fields of an extended header are read back. -/
theorem fields_bytes_extended
    (h : Header)
    (data : Bytes)
    (hExtended : h.extended = true) :
    fields h.format (h.bytes.toArray ++ data) = .ok h := by
  rcases h with ⟨format, count, length, extended⟩
  dsimp only at hExtended ⊢
  subst hExtended
  rcases format.order.bytes_two count.toNat with
    ⟨a, b, hTwo⟩
  rcases format.order.bytes_four length.toNat with
    ⟨c, d, e, f, hFour⟩
  have hCount := format.order.word16_bytes16 count
  have hWhole := format.order.word32_bytes32 length
  unfold ByteOrder.bytes16 at hCount
  unfold ByteOrder.bytes32 at hWhole
  rw [hTwo] at hCount
  rw [hFour] at hWhole
  have hBytes :
      (bytes ⟨format, count, length, true⟩).toArray ++ data =
        ([format.token, 0, a, b, c, d, e, f] ++
          data.toList).toArray := by
    simp [bytes, ByteOrder.bytes16, ByteOrder.bytes32, hTwo,
      hFour]
  have hEnough :
      ¬ ([format.token, 0, a, b, c, d, e, f] ++
        data.toList).toArray.size < extendedSize := by
    simp [extendedSize]
  rw [hBytes]
  unfold fields
  dsimp only
  rw [if_neg hEnough]
  simp [slice, hCount, hWhole]

/- The fields of a short header are read back. -/
theorem fields_bytes_short
    (h : Header)
    (data : Bytes)
    (hExtended : h.extended = false)
    (hLow : 1 ≤ h.count.toNat)
    (hHigh : h.count.toNat ≤ 255)
    (hShort : h.length.toNat ≤ 0xffff) :
    fields h.format (h.bytes.toArray ++ data) = .ok h := by
  rcases h with ⟨format, count, length, extended⟩
  dsimp only at hExtended hLow hHigh hShort ⊢
  subst hExtended
  rcases format.order.bytes_two length.toNat with
    ⟨a, b, hTwo⟩
  have hValue := format.order.value_bytes 2 length.toNat
  have hMod : length.toNat % power 256 2 = length.toNat :=
    Nat.mod_eq_of_lt (Nat.lt_succ_of_le hShort)
  rw [hMod, hTwo] at hValue
  have hByte :
      (UInt8.ofNat count.toNat).toNat = count.toNat := by
    rw [UInt8.toNat_ofNat']
    exact Nat.mod_eq_of_lt (by omega)
  have hNonzero : ¬ (UInt8.ofNat count.toNat == 0) = true := by
    rw [beq_iff_eq]
    intro hZero
    have hNat := congrArg UInt8.toNat hZero
    rw [hByte, UInt8.toNat_zero] at hNat
    omega
  have hBytes :
      (bytes ⟨format, count, length, false⟩).toArray ++
          data =
        ([format.token, UInt8.ofNat count.toNat, a, b] ++
          data.toList).toArray := by
    simp [bytes, hTwo]
  have hSecond :
      ([format.token, UInt8.ofNat count.toNat, a, b] ++
        data.toList).toArray[1]? =
          some (UInt8.ofNat count.toNat) := rfl
  have hEnough :
      ¬ ([format.token, UInt8.ofNat count.toNat, a, b] ++
        data.toList).toArray.size < shortSize := by
    simp [shortSize]
  rw [hBytes]
  unfold fields
  rw [hSecond]
  dsimp only
  rw [if_neg hNonzero, if_neg hEnough, hByte]
  simp [slice, hValue]

/-
  A header that can be written: it spans itself, and a short
  one has fields that fit into its bytes.
-/
structure Writable
    (h : Header) : Prop where
  spans : h.size ≤ h.length.toNat
  short :
    h.extended = false →
      1 ≤ h.count.toNat ∧ h.count.toNat ≤ 255 ∧
        h.length.toNat ≤ 0xffff

/- Such a header is read back, whatever follows it. -/
theorem Writable.parse_bytes
    {h : Header}
    (hWritable : h.Writable)
    (data : Bytes) :
    parse (h.bytes.toArray ++ data) = .ok h := by
  have hFields :
      fields h.format (h.bytes.toArray ++ data) = .ok h := by
    cases hExtended : h.extended with
    | true => exact fields_bytes_extended h data hExtended
    | false =>
        rcases hWritable.short hExtended with
          ⟨hLow, hHigh, hBound⟩
        exact fields_bytes_short h data hExtended hLow hHigh
          hBound
  have hToken :
      (h.bytes.toArray ++ data)[0]? = some h.format.token := by
    unfold bytes
    cases h.extended <;>
      rw [← Array.getElem?_toList, Array.toList_append] <;>
      rfl
  unfold parse check
  rw [hToken]
  dsimp only
  rw [SequenceFormat.ofToken?_token]
  dsimp only
  rw [hFields]
  dsimp only
  rw [if_neg (Nat.not_lt.mpr hWritable.spans)]

/- The header chosen for a payload is such a header. -/
theorem writable_of_forPayload
    {format : SequenceFormat}
    {count payload : Nat}
    {h : Header}
    (hHeader : forPayload format count payload = .ok h) :
    h.Writable := by
  rcases forPayload_ok hHeader with
    ⟨-, hCount, hLength, -, hShort⟩
  refine ⟨?_, ?_⟩
  · rw [hLength]
    exact Nat.le_add_right _ _
  · rw [hCount]
    exact hShort

/-
  The header chosen for a payload is read back, whatever
  follows it.
-/
theorem parse_bytes
    {format : SequenceFormat}
    {count payload : Nat}
    {h : Header}
    (hHeader : forPayload format count payload = .ok h)
    (data : Bytes) :
    parse (h.bytes.toArray ++ data) = .ok h :=
  (writable_of_forPayload hHeader).parse_bytes data

end Header

end PostScript
