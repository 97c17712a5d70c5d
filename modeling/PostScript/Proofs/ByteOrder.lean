import Mathlib.Algebra.Order.Ring.Nat
import Mathlib.Data.List.Induction
import PostScript.ByteOrder

/-
  This file shows that bytes and the number that they stand
  for determine each other, in both orders.

  Main results:
    * `ByteOrder.value_lt`
    * `ByteOrder.bytes_value`
-/

namespace PostScript

------------------------------------------------------------
-- Most Significant Byte First
------------------------------------------------------------

/- One more byte behind a number. -/
theorem bigEndianValue_concat
    (bytes : List UInt8)
    (b : UInt8) :
    bigEndianValue (bytes ++ [b]) =
      bigEndianValue bytes * 256 + b.toNat := by
  unfold bigEndianValue
  rw [List.foldl_append]
  rfl

/- Bytes stand for a number that fits them. -/
theorem bigEndianValue_lt
    (bytes : List UInt8) :
    bigEndianValue bytes < 256 ^ bytes.length := by
  induction bytes using List.reverseRecOn with
  | nil => exact Nat.one_pos
  | append_singleton bytes b ih =>
      have hByte := b.toNat_lt
      rw [bigEndianValue_concat, List.length_append,
        List.length_singleton, pow_succ]
      omega

/- The bytes of the number that bytes stand for. -/
theorem bigEndianBytes_value
    (bytes : List UInt8) :
    bigEndianBytes bytes.length (bigEndianValue bytes) =
      bytes := by
  induction bytes using List.reverseRecOn with
  | nil => rfl
  | append_singleton bytes b ih =>
      have hByte := b.toNat_lt
      have hHigh :
          (bigEndianValue bytes * 256 + b.toNat) / 256 =
            bigEndianValue bytes := by
        omega
      have hLow :
          UInt8.ofNat (bigEndianValue bytes * 256 + b.toNat) =
            b := by
        rw [← UInt8.toNat_inj, UInt8.toNat_ofNat']
        omega
      rw [bigEndianValue_concat, List.length_append,
        List.length_singleton, bigEndianBytes, hHigh, hLow,
        ih]

/- The leading bytes of a number are those of its quotient. -/
theorem take_bigEndianBytes
    (n k v : Nat) :
    (bigEndianBytes (n + k) v).take n =
      bigEndianBytes n (v / 256 ^ k) := by
  induction k generalizing v with
  | zero =>
      rw [Nat.add_zero, pow_zero, Nat.div_one]
      exact List.take_of_length_le
        (length_bigEndianBytes n v).le
  | succ k ih =>
      have hLength :
          n ≤ (bigEndianBytes (n + k) (v / 256)).length := by
        rw [length_bigEndianBytes]
        exact Nat.le_add_right n k
      rw [← Nat.add_assoc, bigEndianBytes,
        List.take_append_of_le_length hLength, ih,
        Nat.div_div_eq_div_mul, pow_succ, Nat.mul_comm]

------------------------------------------------------------
-- Orders
------------------------------------------------------------

namespace ByteOrder

/- Bytes stand for a number below a power of their number. -/
theorem value_lt
    (order : ByteOrder)
    (bs : List UInt8) :
    order.value bs < power 256 bs.length := by
  cases order with
  | big => exact bigEndianValue_lt bs
  | little =>
      have h := bigEndianValue_lt bs.reverse
      rwa [List.length_reverse] at h

/- The bytes of the number that bytes stand for. -/
theorem bytes_value
    (order : ByteOrder)
    (bs : List UInt8) :
    order.bytes bs.length (order.value bs) = bs := by
  cases order with
  | big => exact bigEndianBytes_value bs
  | little =>
      have h := bigEndianBytes_value bs.reverse
      rw [List.length_reverse] at h
      rw [bytes, value, h, List.reverse_reverse]

/- Two or four bytes are read without loss. -/
theorem toNat_word16
    (order : ByteOrder)
    {bs : List UInt8}
    (hLength : bs.length = 2) :
    (order.word16 bs).toNat = order.value bs := by
  have hValue := order.value_lt bs
  rw [hLength] at hValue
  rw [word16, UInt16.toNat_ofNat']
  exact Nat.mod_eq_of_lt hValue

theorem toNat_word32
    (order : ByteOrder)
    {bs : List UInt8}
    (hLength : bs.length = 4) :
    (order.word32 bs).toNat = order.value bs := by
  have hValue := order.value_lt bs
  rw [hLength] at hValue
  rw [word32, UInt32.toNat_ofNat']
  exact Nat.mod_eq_of_lt hValue

/- A word that has been read is written as its bytes. -/
theorem bytes16_word16
    (order : ByteOrder)
    {bs : List UInt8}
    (hLength : bs.length = 2) :
    order.bytes16 (order.word16 bs) = bs := by
  rw [bytes16, order.toNat_word16 hLength, ← hLength,
    bytes_value]

theorem bytes32_word32
    (order : ByteOrder)
    {bs : List UInt8}
    (hLength : bs.length = 4) :
    order.bytes32 (order.word32 bs) = bs := by
  rw [bytes32, order.toNat_word32 hLength, ← hLength,
    bytes_value]

end ByteOrder

end PostScript
