import PostScript.Numeric.Power

/-
  This file defines the binary floating-point formats as
  exact numbers: what a bit pattern stands for, and which bit
  pattern is nearest to a given fraction.

  Key definitions include:
    * `Ieee.Value`
    * `Ieee.Format`
    * `Ieee.Format.value`
    * `Ieee.roundHalfEven`
    * `Ieee.roundHalfAway`
    * `Ieee.Format.nearest`
    * `Ieee.Format.round`
-/

namespace PostScript.Ieee

------------------------------------------------------------
-- Values
------------------------------------------------------------

/-
  What a floating-point number stands for. A finite number
  is `significand * 2 ^ exponent` with a sign of its own, so
  that there are two zeros.
-/
inductive Value where
  | nan
  | infinite (negative : Bool)
  | finite
      (negative : Bool)
      (significand : Nat)
      (exponent : Int)
deriving DecidableEq, Repr

namespace Value

/- Whether the value is a number and not infinite. -/
def isFinite : Value → Bool
  | finite _ _ _ => true
  | _ => false

/- The significand with its sign. -/
def signed
    (negative : Bool)
    (m : Nat) : Int :=
  if negative then -(m : Int) else m

/- The value as a whole number, digits after the point cut. -/
def truncate : Value → Option Int
  | finite negative m e =>
      some (signed negative
        (m * power 2 e.toNat / power 2 (-e).toNat))
  | _ => none

end Value

------------------------------------------------------------
-- Rounding of Quotients
------------------------------------------------------------

/- The whole number nearest to a quotient, ties to even. -/
def roundHalfEven
    (num den : Nat) : Nat :=
  let q := num / den
  let r := num % den
  if 2 * r < den then
    q
  else if den < 2 * r then
    q + 1
  else
    q + q % 2

/- The whole number nearest to a quotient, ties upwards. -/
def roundHalfUp
    (num den : Nat) : Nat :=
  (2 * num + den) / (2 * den)

/-
  The whole number nearest to `n * 2 ^ k`, ties away from
  zero.
-/
def roundHalfAway
    (n k : Int) : Int :=
  Value.signed (n < 0)
    (roundHalfUp
      (n.natAbs * power 2 k.toNat) (power 2 (-k).toNat))

/- The greatest `k` with `2 ^ k` at most the quotient. -/
def log2Quotient
    (num den : Nat) : Int :=
  let k : Int := (num.log2 : Int) - den.log2
  if den * power 2 k.toNat ≤ num * power 2 (-k).toNat then
    k
  else
    k - 1

------------------------------------------------------------
-- Formats
------------------------------------------------------------

/- The widths of the two fields after the sign bit. -/
structure Format where
  exponentBits : Nat
  fractionBits : Nat
deriving DecidableEq, Repr

/- Single precision. -/
def single : Format :=
  ⟨8, 23⟩

/- Double precision. -/
def double : Format :=
  ⟨11, 52⟩

namespace Format

variable (F : Format)

/- The exponent field of one. -/
def bias : Nat :=
  power 2 (F.exponentBits - 1) - 1

/- The exponent of the last place of the smallest numbers. -/
def leastExponent : Int :=
  1 - (F.bias : Int) - F.fractionBits

/- The exponent field that infinities and NaNs carry. -/
def topExponent : Nat :=
  power 2 F.exponentBits - 1

/- The bits of positive infinity. -/
def infinityBits : Nat :=
  F.topExponent * power 2 F.fractionBits

/- The sign bit. -/
def signBit : Nat :=
  power 2 (F.exponentBits + F.fractionBits)

/- The exponent field of a bit pattern. -/
def exponentField
    (bits : Nat) : Nat :=
  bits / power 2 F.fractionBits % power 2 F.exponentBits

/- What a bit pattern stands for. -/
def value
    (bits : Nat) : Value :=
  let negative := bits / F.signBit % 2 == 1
  let fraction := bits % power 2 F.fractionBits
  let field := F.exponentField bits
  if field = F.topExponent then
    if fraction = 0 then .infinite negative else .nan
  else if field = 0 then
    .finite negative fraction F.leastExponent
  else
    .finite negative (power 2 F.fractionBits + fraction)
      (F.leastExponent + (field - 1 : Nat))

/- Put a sign in front of the bits of a magnitude. -/
def withSign
    (negative : Bool)
    (bits : Nat) : Nat :=
  if negative then F.signBit + bits else bits

/-
  The bits of the number nearest to a fraction, ties to even.
  The last place is chosen so that the significand fills its
  field, but never below the last place of the smallest
  numbers; a significand that rounds up to the next power of
  two carries into the exponent field, and past the greatest
  exponent the number is infinite.
-/
def nearest
    (num den : Nat) : Nat :=
  if num = 0 then
    0
  else
    let place :=
      max F.leastExponent
        (log2Quotient num den - F.fractionBits)
    let m :=
      roundHalfEven
        (num * power 2 (-place).toNat)
        (den * power 2 place.toNat)
    min F.infinityBits
      ((place - F.leastExponent).toNat *
        power 2 F.fractionBits + m)

/- The bits of the number nearest to a value. -/
def round : Value → Nat
  | .nan => F.infinityBits + power 2 (F.fractionBits - 1)
  | .infinite negative =>
      F.withSign negative F.infinityBits
  | .finite negative m e =>
      F.withSign negative
        (F.nearest (m * power 2 e.toNat)
          (power 2 (-e).toNat))

end Format

end PostScript.Ieee
