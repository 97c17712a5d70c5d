import PostScript.Numeric.Arithmetic

/-
  This file defines real numbers: a single-precision number
  and a correction in units of 2^-16 of its last place.

  Key definitions include:
    * `Real`
    * `Real.lastPlace`
    * `Real.value`
    * `Real.unit`
    * `Real.toDouble`
    * `Real.correction`
    * `Real.ofDouble`
    * `Real.toInt32`
-/

namespace PostScript

/-
  A real. The extension holds what the single-precision
  number leaves out; it is zero where that does not fit.
-/
structure Real where
  bits : UInt32
  extension : Int16 := 0
deriving DecidableEq, Repr

namespace Real

/- The single-precision number alone. -/
def single
    (r : Real) : Ieee.Value :=
  Ieee.single.value r.bits.toNat

/- Whether the real is neither infinite nor a NaN. -/
def isFinite
    (r : Real) : Bool :=
  r.single.isFinite

/- Whether the real is infinite. -/
def isInfinite
    (r : Real) : Bool :=
  match r.single with
  | .infinite _ => true
  | _ => false

/-
  The exponent of the last place of a normal number. Zeros,
  subnormal numbers, infinities and NaNs have none.
-/
def lastPlace
    (bits : UInt32) : Option Int :=
  let field := Ieee.single.exponentField bits.toNat
  if field = 0 ∨ field = Ieee.single.topExponent then
    none
  else
    some (Ieee.single.leastExponent + (field - 1 : Nat))

/-
  The exact value. The extension counts only beside a normal
  number.
-/
def value
    (r : Real) : Ieee.Value :=
  match r.single, lastPlace r.bits with
  | .finite negative m _, some place =>
      let scaled :=
        Ieee.Value.signed negative m * power 2 16 +
          r.extension.toInt
      .finite (scaled < 0) scaled.natAbs (place - 16)
  | v, _ => v

/-
  The unit in the last place of a normal number, as bits in
  double precision. It is a power of two.
-/
def unit
    (bits : UInt32) : Option Nat :=
  (lastPlace bits).map (fun place : Int =>
    (place + Ieee.double.bias).toNat *
      power 2 Ieee.double.fractionBits)

/-
  The value in double precision. An extension is added in
  units of 2^-16 of the last place.
-/
def toDouble
    (r : Real) : UInt64 :=
  let v := Ieee.double.round r.single
  UInt64.ofNat
    (match unit r.bits with
    | some u =>
        if r.extension = 0 then
          v
        else
          Ieee.double.add v
            (Ieee.double.div
              (Ieee.double.mul
                (Ieee.double.ofInt r.extension.toInt) u)
              (Ieee.double.ofInt 0x10000))
    | none => v)

/-
  The extension that takes a single-precision number to a
  number in double precision. One that needs more than 16 bits
  is dropped.
-/
def correction
    (d : UInt64)
    (bits : UInt32) : Int16 :=
  match unit bits with
  | some u =>
      let difference :=
        Ieee.double.sub d.toNat
          (Ieee.double.round (Ieee.single.value bits.toNat))
      let scaled :=
        Ieee.double.mul (Ieee.double.div difference u)
          (Ieee.double.ofInt 0x10000)
      match (Ieee.double.value scaled).wholeAway with
      | some c =>
          if -0x8000 ≤ c ∧ c ≤ 0x7fff then Int16.ofInt c else 0
      | none => 0
  | none => 0

/-
  The single-precision number nearest to a number in double
  precision, extended by what rounding leaves out.
-/
def ofDouble
    (d : UInt64) : Real :=
  let bits :=
    UInt32.ofNat
      (Ieee.single.round (Ieee.double.value d.toNat))
  ⟨bits, correction d bits⟩

/- Numbers beyond the range of 32 bits become its ends. -/
def clampInt32
    (n : Int) : Int32 :=
  Int32.ofInt (max (-0x80000000) (min n 0x7fffffff))

/-
  The single-precision number without its fraction. A NaN
  gives zero.
-/
def toInt32
    (r : Real) : Int32 :=
  match r.single with
  | .nan => 0
  | .infinite true => clampInt32 (-0x80000000)
  | .infinite false => clampInt32 0x7fffffff
  | v => clampInt32 (v.truncate.getD 0)

/-
  Two reals are the same number with the same correction. A
  NaN differs from itself and the two zeros do not differ.
-/
def agrees
    (a b : Real) : Bool :=
  a.extension == b.extension &&
    match a.single, b.single with
    | .nan, _ => false
    | _, .nan => false
    | .finite _ 0 _, .finite _ 0 _ => true
    | _, _ => a.bits == b.bits

end Real

end PostScript
