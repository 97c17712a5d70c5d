import PostScript.Numeric.Real

/-
  This file defines numbers, which are integers or reals, and
  their three readings.

  Key definitions include:
    * `Number`
    * `Number.value`
    * `Number.toInt32`
    * `Number.toSingle`
    * `Number.toDouble`
-/

namespace PostScript

/- A number is a 32-bit integer or a real. -/
inductive Number where
  | integer (v : Int32)
  | real (v : Real)
deriving DecidableEq, Repr

namespace Number

/- A whole number as an exact value. -/
def wholeValue
    (n : Int) : Ieee.Value :=
  .finite (n < 0) n.natAbs 0

/- The exact value of a number. -/
def value : Number → Ieee.Value
  | integer v => wholeValue v.toInt
  | real v => v.value

/- The number as an integer. -/
def toInt32 : Number → Int32
  | integer v => v
  | real v => v.toInt32

/- The number in single precision, without extension. -/
def toSingle : Number → UInt32
  | integer v =>
      UInt32.ofNat (Ieee.single.round (wholeValue v.toInt))
  | real v => v.bits

/- The number in double precision. -/
def toDouble : Number → UInt64
  | integer v =>
      UInt64.ofNat (Ieee.double.round (wholeValue v.toInt))
  | real v => v.toDouble

end Number

end PostScript
