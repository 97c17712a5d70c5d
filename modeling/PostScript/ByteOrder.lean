import PostScript.Numeric.Power

/-
  This file defines the two byte orders in which a number
  of several bytes is written.

  Key definitions include:
    * `bigEndianValue`
    * `bigEndianBytes`
    * `ByteOrder`
    * `ByteOrder.value`
    * `ByteOrder.bytes`

  Correctness is proven by:
    * `ByteOrder.length_bytes`
    * `ByteOrder.value_bytes`
-/

namespace PostScript

------------------------------------------------------------
-- Most Significant Byte First
------------------------------------------------------------

/- The number whose bytes are given, the greatest first. -/
def bigEndianValue
    (bs : List UInt8) : Nat :=
  bs.foldl (fun v b => v * 256 + b.toNat) 0

/- The last `n` bytes of a number, the greatest first. -/
def bigEndianBytes : Nat → Nat → List UInt8
  | 0, _ => []
  | n + 1, v =>
      bigEndianBytes n (v / 256) ++ [UInt8.ofNat v]

/- A number of `n` bytes has `n` bytes. -/
theorem length_bigEndianBytes
    (n v : Nat) :
    (bigEndianBytes n v).length = n := by
  induction n generalizing v with
  | zero => rfl
  | succ n ih => simp [bigEndianBytes, ih]

/- Reading gives back what the bytes can hold. -/
theorem bigEndianValue_bytes
    (n v : Nat) :
    bigEndianValue (bigEndianBytes n v) = v % power 256 n := by
  induction n generalizing v with
  | zero =>
      simp [bigEndianBytes, bigEndianValue, power_zero,
        Nat.mod_one]
  | succ n ih =>
      have hPrev := ih (v / 256)
      have hSplit :
          v % power 256 (n + 1) =
            v % 256 + 256 * (v / 256 % power 256 n) := by
        rw [power_succ, Nat.mul_comm, Nat.mod_mul]
      unfold bigEndianValue at hPrev ⊢
      rw [bigEndianBytes, List.foldl_append, hPrev, hSplit]
      simp only [List.foldl_cons, List.foldl_nil,
        UInt8.toNat_ofNat']
      omega

------------------------------------------------------------
-- Orders
------------------------------------------------------------

/- Whether the greatest or the least byte comes first. -/
inductive ByteOrder where
  | big
  | little
deriving DecidableEq, Repr

namespace ByteOrder

/- The number that bytes in this order stand for. -/
def value
    (order : ByteOrder)
    (bs : List UInt8) : Nat :=
  match order with
  | big => bigEndianValue bs
  | little => bigEndianValue bs.reverse

/- The last `n` bytes of a number in this order. -/
def bytes
    (order : ByteOrder)
    (n v : Nat) : List UInt8 :=
  match order with
  | big => bigEndianBytes n v
  | little => (bigEndianBytes n v).reverse

/- A number of `n` bytes has `n` bytes in either order. -/
theorem length_bytes
    (order : ByteOrder)
    (n v : Nat) :
    (order.bytes n v).length = n := by
  cases order with
  | big => exact length_bigEndianBytes n v
  | little =>
      simp [bytes, length_bigEndianBytes]

/- Both orders read back what they have written. -/
theorem value_bytes
    (order : ByteOrder)
    (n v : Nat) :
    order.value (order.bytes n v) = v % power 256 n := by
  cases order with
  | big => exact bigEndianValue_bytes n v
  | little =>
      simp [value, bytes, bigEndianValue_bytes]

/- A 16-bit number read in this order. -/
def word16
    (order : ByteOrder)
    (bs : List UInt8) : UInt16 :=
  UInt16.ofNat (order.value bs)

/- A 32-bit number read in this order. -/
def word32
    (order : ByteOrder)
    (bs : List UInt8) : UInt32 :=
  UInt32.ofNat (order.value bs)

/- The two bytes of a 16-bit number. -/
def bytes16
    (order : ByteOrder)
    (v : UInt16) : List UInt8 :=
  order.bytes 2 v.toNat

/- The four bytes of a 32-bit number. -/
def bytes32
    (order : ByteOrder)
    (v : UInt32) : List UInt8 :=
  order.bytes 4 v.toNat

/- A 16-bit number survives being written and read. -/
theorem word16_bytes16
    (order : ByteOrder)
    (v : UInt16) :
    order.word16 (order.bytes16 v) = v := by
  have h : v.toNat % power 256 2 = v.toNat :=
    Nat.mod_eq_of_lt v.toNat_lt
  simp [word16, bytes16, value_bytes, h]

/- A 32-bit number survives being written and read. -/
theorem word32_bytes32
    (order : ByteOrder)
    (v : UInt32) :
    order.word32 (order.bytes32 v) = v := by
  have h : v.toNat % power 256 4 = v.toNat :=
    Nat.mod_eq_of_lt v.toNat_lt
  simp [word32, bytes32, value_bytes, h]

end ByteOrder

end PostScript
