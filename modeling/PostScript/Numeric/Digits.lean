import PostScript.Bytes
import PostScript.Numeric.Power

/-
  This file reads decimal digits as a number. Long runs of
  digits are cut into halves, so that few products of great
  numbers are needed.

  Key definitions include:
    * `decimalValue`
    * `decimalByHalves`

  Correctness is proven by:
    * `decimalValue_append`
    * `decimalByHalves_eq`
-/

namespace PostScript

------------------------------------------------------------
-- Digit by Digit
------------------------------------------------------------

/- One more digit behind a number. -/
def addDigit
    (v : Nat)
    (b : UInt8) : Nat :=
  v * 10 + (b.toNat - '0'.toNat)

/- The value of decimal digits. -/
def decimalValue
    (digits : List UInt8) : Nat :=
  digits.foldl addDigit 0

/- What stands before digits is moved up by their number. -/
theorem foldl_addDigit
    (digits : List UInt8)
    (v : Nat) :
    digits.foldl addDigit v =
      v * power 10 digits.length + decimalValue digits := by
  unfold decimalValue
  induction digits generalizing v with
  | nil => simp [power_zero]
  | cons b rest ih =>
      rw [List.foldl_cons, List.foldl_cons, ih,
        ih (addDigit 0 b), List.length_cons, power_succ]
      simp only [addDigit, Nat.add_mul, Nat.mul_assoc,
        Nat.mul_comm 10, Nat.zero_mul, Nat.zero_add]
      omega

/- Digits behind digits. -/
theorem decimalValue_append
    (high low : List UInt8) :
    decimalValue (high ++ low) =
      decimalValue high * power 10 low.length +
        decimalValue low := by
  have h := foldl_addDigit low (decimalValue high)
  unfold decimalValue at h ⊢
  rw [List.foldl_append, h]

------------------------------------------------------------
-- By Halves
------------------------------------------------------------

/- The value of digits that are halved `depth` times. -/
def halvedValue : Nat → List UInt8 → Nat
  | 0, digits => decimalValue digits
  | depth + 1, digits =>
      let high := digits.take (digits.length / 2)
      let low := digits.drop (digits.length / 2)
      halvedValue depth high * power 10 low.length +
        halvedValue depth low

/- Halving does not change the value. -/
theorem halvedValue_eq
    (depth : Nat)
    (digits : List UInt8) :
    halvedValue depth digits = decimalValue digits := by
  induction depth generalizing digits with
  | zero => rfl
  | succ depth ih =>
      simp only [halvedValue, ih]
      rw [← decimalValue_append, List.take_append_drop]

/- The value of digits, halved down to short runs. -/
def decimalByHalves
    (digits : List UInt8) : Nat :=
  halvedValue (digits.length.log2 - 4) digits

/- Both ways of reading digits give the same number. -/
@[simp]
theorem decimalByHalves_eq
    (digits : List UInt8) :
    decimalByHalves digits = decimalValue digits :=
  halvedValue_eq _ digits

end PostScript
