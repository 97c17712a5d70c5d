/-
  This file defines powers of natural numbers.

  Key definitions include:
    * `power`

  Correctness is proven by:
    * `power_zero`
    * `power_succ`
-/

namespace PostScript

/- The power of a base. -/
def power
    (base exponent : Nat) : Nat :=
  base.pow exponent

/- An empty product is one. -/
theorem power_zero
    (base : Nat) :
    power base 0 = 1 :=
  rfl

/- A greater exponent by one is one more factor. -/
theorem power_succ
    (base exponent : Nat) :
    power base (exponent + 1) = power base exponent * base :=
  rfl

end PostScript
