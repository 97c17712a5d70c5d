import PostScript.ByteOrder
import PostScript.Error
import PostScript.Numeric.FixedPoint
import PostScript.Numeric.Number

/-
  This file defines arrays of numbers that are all written in
  the same form.

  Key definitions include:
    * `NumberForm`
    * `NumberFormat`
    * `NumberFormat.ofByte?`
    * `NumberFormat.byte`
    * `NumberFormat.read`
    * `NumberFormat.scaled`
    * `NumberFormat.exceeds`
    * `NumberFormat.mantissa`
    * `NumberFormat.write`
    * `NumberArray.decode`
    * `NumberArray.encode`
-/

namespace PostScript

------------------------------------------------------------
-- Formats
------------------------------------------------------------

/-
  How a number is written: as an integer of 32 or 16 bits
  with a binary scale, or as a floating-point number.
-/
inductive NumberForm where
  | fixed32 (scale : UInt8)
  | fixed16 (scale : UInt8)
  | ieee
  | native
deriving DecidableEq, Repr

/- A form and the order of its bytes. -/
structure NumberFormat where
  form : NumberForm
  order : ByteOrder
deriving DecidableEq, Repr

namespace NumberForm

/- The form with a number. -/
def ofNat?
    (n : Nat) : Option NumberForm :=
  if n < 32 then
    some (fixed32 (UInt8.ofNat n))
  else if n < 48 then
    some (fixed16 (UInt8.ofNat (n - 32)))
  else if n = 48 then
    some ieee
  else if n = 49 then
    some native
  else
    none

/- The number of a form, with the greatest scale at most. -/
def toNat : NumberForm → Nat
  | fixed32 scale => min scale.toNat 31
  | fixed16 scale => 32 + min scale.toNat 15
  | ieee => 48
  | native => 49

/- The size of a number in bytes. -/
def size : NumberForm → Nat
  | fixed16 _ => 2
  | _ => 4

end NumberForm

namespace NumberFormat

/- The format of a byte, whose high bit gives the order. -/
def ofByte?
    (b : UInt8) : Option NumberFormat :=
  (NumberForm.ofNat? (b.toNat % 128)).map
    (fun form =>
      ⟨form, if b < 128 then .big else .little⟩)

/- The byte of a format. -/
def byte
    (f : NumberFormat) : UInt8 :=
  match f.order with
  | .big => UInt8.ofNat f.form.toNat
  | .little => UInt8.ofNat (f.form.toNat + 128)

/- The size of a number in bytes. -/
def size
    (f : NumberFormat) : Nat :=
  f.form.size

------------------------------------------------------------
-- Single Numbers
------------------------------------------------------------

/- A mantissa with its scale; without scale an integer. -/
def scaledNumber
    (mantissa : Int32)
    (scale : UInt8) : Number :=
  if scale = 0 then
    .integer mantissa
  else
    .real ⟨FixedPoint.toSingle ⟨mantissa, scale.toNat⟩, 0⟩

/- A single-precision number, which must be finite. -/
def finiteNumber
    (bits : UInt32) : Except Cause Number :=
  if Real.isFinite ⟨bits, 0⟩ then
    .ok (.real ⟨bits, 0⟩)
  else
    .error .notFinite

/- Read the bytes of one number. -/
def read
    (f : NumberFormat)
    (bytes : List UInt8) : Except Cause Number :=
  match f.form with
  | .fixed16 scale =>
      .ok (scaledNumber
        (f.order.word16 bytes).toInt16.toInt32 scale)
  | .fixed32 scale =>
      .ok (scaledNumber
        (f.order.word32 bytes).toInt32 scale)
  | .ieee | .native =>
      finiteNumber (f.order.word32 bytes)

/- The greatest scale that numbers are multiplied by. -/
def greatestScale : Nat :=
  31

/-
  The number times a power of two, rounded to the nearest
  whole number with ties away from zero. All of it is done in
  double precision.
-/
def scaled
    (n : Number)
    (scale : UInt8) : Nat :=
  Ieee.double.nearestWhole
    (Ieee.double.mul n.toDouble.toNat
      (Ieee.double.ofInt
        (power 2 (min scale.toNat greatestScale))))

/- The least integer with so many bits. -/
def leastMantissa
    (bits : Nat) : Nat :=
  Ieee.double.ofInt (-(power 2 (bits - 1) : Int))

/- The greatest one. -/
def greatestMantissa
    (bits : Nat) : Nat :=
  Ieee.double.ofInt ((power 2 (bits - 1) : Int) - 1)

/-
  Whether a value is not between these two. They are compared
  in double precision.
-/
def exceeds
    (bits : Nat)
    (v : Ieee.Value) : Bool :=
  v.isLess (Ieee.double.value (leastMantissa bits)) ||
    (Ieee.double.value (greatestMantissa bits)).isLess v

/-
  The mantissa of a number at a scale, which must be an
  integer with so many bits.
-/
def mantissa
    (n : Number)
    (scale : UInt8)
    (bits : Nat) : Except Cause Int :=
  let v := Ieee.double.value (scaled n scale)
  if v = .nan then
    .error .notFinite
  else if exceeds bits v then
    .error .doesNotFit
  else
    .ok (v.truncate.getD 0)

/- The bytes of one number. -/
def write
    (f : NumberFormat)
    (n : Number) : Except Cause (List UInt8) :=
  match f.form with
  | .fixed32 scale =>
      match mantissa n scale 32 with
      | .ok v =>
          .ok (f.order.bytes32 (Int32.ofInt v).toUInt32)
      | .error cause => .error cause
  | .fixed16 scale =>
      match mantissa n scale 16 with
      | .ok v =>
          .ok (f.order.bytes16 (Int16.ofInt v).toUInt16)
      | .error cause => .error cause
  | .ieee | .native =>
      if Real.isFinite ⟨n.toSingle, 0⟩ then
        .ok (f.order.bytes32 n.toSingle)
      else
        .error .notFinite

end NumberFormat

------------------------------------------------------------
-- Arrays
------------------------------------------------------------

namespace NumberArray

/- The token in front of a count of two bytes. -/
def shortToken : UInt8 :=
  149

/- The token in front of a length of four bytes. -/
def longToken : UInt8 :=
  150

/- Read `n` numbers behind those already read. -/
def decodeAfter
    (f : NumberFormat)
    (numbers : Array Number) :
    Nat → List UInt8 → Except Cause (List Number)
  | 0, _ => .ok numbers.toList
  | n + 1, bytes =>
      match f.read (bytes.take f.size) with
      | .ok v =>
          decodeAfter f (numbers.push v) n
            (bytes.drop f.size)
      | .error cause => .error cause

/- Read the numbers of an array. -/
def decode
    (f : NumberFormat)
    (data : Bytes) : Except Cause (List Number) :=
  if data.size % f.size ≠ 0 then
    .error .ragged
  else
    decodeAfter f #[] (data.size / f.size) data.toList

/- Write numbers behind bytes already written. -/
def writeAfter
    (f : NumberFormat)
    (out : Bytes) :
    List Number → Except Cause Bytes
  | [] => .ok out
  | n :: ns =>
      match f.write n with
      | .ok bytes => writeAfter f (out.appendList bytes) ns
      | .error cause => .error cause

/- What stands in front of the numbers. -/
def heading
    (f : NumberFormat)
    (count : Nat) : Except Cause (List UInt8) :=
  if count ≤ 0xffff then
    .ok (shortToken :: f.byte :: f.order.bytes 2 count)
  else if count * f.size ≤ 0xffffffff then
    .ok (longToken :: f.byte ::
      f.order.bytes 4 (count * f.size))
  else
    .error .longNumberArray

/- Write an array of numbers as a token. -/
def encode
    (f : NumberFormat)
    (numbers : List Number) : Except Cause Bytes :=
  match heading f numbers.length with
  | .ok bytes => writeAfter f bytes.toArray numbers
  | .error cause => .error cause

end NumberArray

end PostScript
