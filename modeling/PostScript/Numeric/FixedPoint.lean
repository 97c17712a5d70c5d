import PostScript.Numeric.Ieee

/-
  This file converts between single-precision numbers and
  32-bit integers with a binary scale.

  Key definitions include:
    * `FixedPoint`
    * `FixedPoint.toSingle`
    * `FixedPoint.ofSingle?`
-/

namespace PostScript

/- The number `mantissa / 2 ^ scale`. -/
structure FixedPoint where
  mantissa : Int32
  scale : Nat
deriving DecidableEq, Repr

namespace FixedPoint

/- The nearest single-precision number. -/
def toSingle
    (x : FixedPoint) : UInt32 :=
  UInt32.ofNat (Ieee.single.round
    (.finite (x.mantissa.toInt < 0)
      x.mantissa.toInt.natAbs (-(x.scale : Int))))

/- Whether `m * 2 ^ k` is a whole number. -/
def isWhole
    (m : Nat)
    (k : Int) : Bool :=
  m * power 2 k.toNat % power 2 (-k).toNat == 0

/- The whole number `m * 2 ^ k`. -/
def whole
    (m : Nat)
    (k : Int) : Nat :=
  m * power 2 k.toNat / power 2 (-k).toNat

/-
  The form of a number with the least scale from 1 to 31 that
  leaves no fraction, if its mantissa fits. Zeros have no such
  form.
-/
def ofSingle?
    (bits : UInt32) : Option FixedPoint :=
  match Ieee.single.value bits.toNat with
  | .finite negative m e =>
      if m = 0 then
        none
      else
        match (List.range' 1 31).find?
            (fun (s : Nat) => isWhole m (e + s)) with
        | some s =>
            let n := whole m (e + s)
            if n ≤ 0x7fffffff then
              some ⟨Int32.ofInt
                (Ieee.Value.signed negative n), s⟩
            else
              none
        | none => none
  | _ => none

end FixedPoint

end PostScript
