import PostScript.Numeric.Ieee

/-
  This file defines arithmetic in the binary floating-point
  formats: what an operation gives is the exact result,
  rounded.

  Key definitions include:
    * `Ieee.Value.negate`
    * `Ieee.Value.add`
    * `Ieee.Value.mul`
    * `Ieee.Value.wholeAway`
    * `Ieee.Value.nearestWhole`
    * `Ieee.Value.isLess`
    * `Ieee.Format.ofInt`
    * `Ieee.Format.add`
    * `Ieee.Format.sub`
    * `Ieee.Format.mul`
    * `Ieee.Format.div`
    * `Ieee.Format.nearestWhole`
    * `Ieee.Format.signum`
-/

namespace PostScript.Ieee

------------------------------------------------------------
-- Exact Results
------------------------------------------------------------

namespace Value

/- The value with the other sign. -/
def negate : Value → Value
  | nan => nan
  | infinite negative => infinite (!negative)
  | finite negative m e => finite (!negative) m e

/-
  The sum of two values. A sum of zero is negative only if
  both of them are, and infinities with different signs have
  no sum.
-/
def add : Value → Value → Value
  | finite n m e, finite n' m' e' =>
      let low := min e e'
      let sum :=
        signed n (m * power 2 (e - low).toNat) +
          signed n' (m' * power 2 (e' - low).toNat)
      finite (sum < 0 || n && n') sum.natAbs low
  | infinite n, infinite n' =>
      if n = n' then infinite n else nan
  | infinite n, finite _ _ _ => infinite n
  | finite _ _ _, infinite n => infinite n
  | _, _ => nan

/-
  The product of two values. Zero and infinity have none.
-/
def mul : Value → Value → Value
  | finite n m e, finite n' m' e' =>
      finite (n != n') (m * m') (e + e')
  | infinite n, infinite n' => infinite (n != n')
  | infinite n, finite n' m _ =>
      if m = 0 then nan else infinite (n != n')
  | finite n m _, infinite n' =>
      if m = 0 then nan else infinite (n != n')
  | _, _ => nan

/- The nearest whole number, halves away from zero. -/
def wholeAway : Value → Option Int
  | finite negative m e =>
      some (roundHalfAway (signed negative m) e)
  | _ => none

/-
  The same as a value. The sign stays where the number is
  rounded to zero, and what is not finite stays as it is.
-/
def nearestWhole : Value → Value
  | finite negative m e =>
      finite negative
        (roundHalfUp (m * power 2 e.toNat) (power 2 (-e).toNat))
        0
  | v => v

/- Whether a value is less than another. A NaN never is. -/
def isLess : Value → Value → Bool
  | finite n m e, finite n' m' e' =>
      let low := min e e'
      signed n (m * power 2 (e - low).toNat) <
        signed n' (m' * power 2 (e' - low).toNat)
  | infinite n, infinite n' => n && !n'
  | infinite n, finite _ _ _ => n
  | finite _ _ _, infinite n' => !n'
  | _, _ => false

end Value

------------------------------------------------------------
-- Rounded Results
------------------------------------------------------------

namespace Format

variable (F : Format)

/- The bits of the number nearest to an integer. -/
def ofInt
    (n : Int) : Nat :=
  F.round (.finite (n < 0) n.natAbs 0)

/- The rounded sum. -/
def add
    (a b : Nat) : Nat :=
  F.round ((F.value a).add (F.value b))

/- The rounded difference. -/
def sub
    (a b : Nat) : Nat :=
  F.round ((F.value a).add (F.value b).negate)

/- The rounded product. -/
def mul
    (a b : Nat) : Nat :=
  F.round ((F.value a).mul (F.value b))

/-
  The rounded quotient. Dividing a number by zero gives
  infinity, and dividing it by infinity gives zero.
-/
def div
    (a b : Nat) : Nat :=
  match F.value a, F.value b with
  | .finite n m e, .finite n' m' e' =>
      if m' ≠ 0 then
        F.withSign (n != n')
          (F.nearest (m * power 2 (e - e').toNat)
            (m' * power 2 (e' - e).toNat))
      else if m = 0 then
        F.round .nan
      else
        F.round (.infinite (n != n'))
  | .infinite n, .finite n' _ _ =>
      F.round (.infinite (n != n'))
  | .finite n _ _, .infinite n' => F.withSign (n != n') 0
  | _, _ => F.round .nan

/- The nearest whole number, halves away from zero. -/
def nearestWhole
    (a : Nat) : Nat :=
  F.round (F.value a).nearestWhole

/- One with the sign of a number; zeros have a sign, too. -/
def signum
    (a : Nat) : Nat :=
  match F.value a with
  | .nan => F.round .nan
  | .infinite negative | .finite negative _ _ =>
      F.round (.finite negative 1 0)

end Format

end PostScript.Ieee
