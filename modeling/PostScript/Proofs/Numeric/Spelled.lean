import PostScript.Proofs.Numeric.Automaton
import PostScript.Proofs.Numeric.Finite

/-
  This file shows which reals a number literal stands for: a
  real that is finite or infinite, and never a NaN.

  Key definitions include:
    * `Number.Spelled`

  Main results:
    * `Ieee.Format.value_withSign_ne_nan`
    * `Decimal.toNat_toSingle`
    * `Decimal.single_toSingle_ne_nan`
    * `Decimal.toReal_eq`
    * `Number.spelled_ofLiteral`
-/

namespace PostScript

namespace Ieee.Format

variable (F : Format)

/- Infinity is the greatest magnitude that is rounded to. -/
theorem nearest_le
    (num den : Nat) :
    F.nearest num den ≤ F.infinityBits := by
  unfold nearest
  split
  · exact Nat.zero_le _
  · exact Nat.min_le_left _ _

/- The bits of infinity with a sign stand for infinity. -/
theorem value_infinity
    (negative : Bool) :
    F.value (F.withSign negative F.infinityBits) =
      .infinite negative := by
  have hLess := F.infinityBits_lt
  have hMagnitude := F.withSign_mod negative hLess
  have hField :
      F.exponentField (F.withSign negative F.infinityBits) =
        F.topExponent := by
    rw [← F.exponentField_magnitude, hMagnitude,
      F.exponentField_eq (Nat.le_refl _), infinityBits,
      Nat.mul_div_cancel _ (power_two_pos _)]
  have hFraction :
      F.withSign negative F.infinityBits %
        power 2 F.fractionBits = 0 := by
    have hDvd : power 2 F.fractionBits ∣ F.signBit :=
      Nat.pow_dvd_pow 2 (Nat.le_add_left _ _)
    rw [← Nat.mod_mod_of_dvd _ hDvd, hMagnitude]
    exact Nat.mul_mod_left _ _
  unfold value
  rw [hField, hFraction, F.sign_withSign negative hLess]
  simp

/-
  Magnitudes up to that of infinity are those of numbers and
  of infinity.
-/
theorem value_withSign_ne_nan
    (negative : Bool)
    {bits : Nat}
    (hBits : bits ≤ F.infinityBits) :
    F.value (F.withSign negative bits) ≠ .nan := by
  rcases Nat.eq_or_lt_of_le hBits with rfl | hFinite
  · rw [F.value_infinity]
    exact nofun
  · rw [F.value_withSign negative hFinite]
    exact nofun

/- What is no NaN is rounded to some magnitude and sign. -/
theorem round_of_ne_nan
    {v : Value}
    (hValue : v ≠ .nan) :
    ∃ negative bits, bits ≤ F.infinityBits ∧
      F.round v = F.withSign negative bits := by
  cases v with
  | nan => exact absurd rfl hValue
  | infinite negative =>
      exact ⟨negative, _, Nat.le_refl _, rfl⟩
  | finite negative m e =>
      exact ⟨negative, _, F.nearest_le _ _, rfl⟩

/- Sign and magnitude take no more bits than they have. -/
theorem withSign_lt
    (negative : Bool)
    {bits : Nat}
    (hBits : bits ≤ F.infinityBits) :
    F.withSign negative bits < 2 * F.signBit := by
  have hLess := F.infinityBits_lt
  unfold withSign
  split <;> omega

end Ieee.Format

------------------------------------------------------------
-- Literals
------------------------------------------------------------

open Ieee

namespace Decimal

/- A literal is first rounded to double precision, -/
theorem toNat_toDouble
    (d : Decimal) :
    d.toDouble.toNat =
      double.withSign d.negative
        (double.nearest
          (d.significand * power 10 d.lastPlace.toNat)
          (power 10 (-d.lastPlace).toNat)) := by
  unfold toDouble
  rw [UInt64.toNat_ofNat']
  refine Nat.mod_eq_of_lt (Nat.lt_of_lt_of_le
    (double.withSign_lt d.negative (double.nearest_le _ _))
    ?_)
  decide

/- where it is no NaN, -/
theorem value_toDouble_ne_nan
    (d : Decimal) :
    double.value d.toDouble.toNat ≠ .nan := by
  rw [d.toNat_toDouble]
  exact double.value_withSign_ne_nan _
    (double.nearest_le _ _)

/- and then to single precision, -/
theorem toNat_toSingle
    (d : Decimal) :
    d.toSingle.toNat =
      single.round (double.value d.toDouble.toNat) := by
  rcases single.round_of_ne_nan d.value_toDouble_ne_nan with
    ⟨negative, bits, hBits, hRound⟩
  unfold toSingle
  rw [UInt32.toNat_ofNat', hRound]
  refine Nat.mod_eq_of_lt (Nat.lt_of_lt_of_le
    (single.withSign_lt negative hBits) ?_)
  decide

/- where it is none either. -/
theorem single_toSingle_ne_nan
    (d : Decimal) :
    Real.single ⟨d.toSingle, 0⟩ ≠ .nan := by
  rcases single.round_of_ne_nan d.value_toDouble_ne_nan with
    ⟨negative, bits, hBits, hRound⟩
  unfold Real.single
  rw [d.toNat_toSingle, hRound]
  exact single.value_withSign_ne_nan negative hBits

/- One with the sign of a number is one or minus one. -/
theorem exists_signum
    {bits : Nat}
    (hNumber : double.value bits ≠ .nan) :
    ∃ negative magnitude,
      double.signum bits =
          double.round (.finite negative 1 0) ∧
        magnitude ≤ single.infinityBits ∧
        single.round (double.value bits) =
          single.withSign negative magnitude := by
  unfold Format.signum
  cases hValue : double.value bits with
  | nan => exact absurd hValue hNumber
  | infinite negative =>
      exact ⟨negative, _, rfl, Nat.le_refl _, rfl⟩
  | finite negative m e =>
      exact ⟨negative, _, rfl, single.nearest_le _ _, rfl⟩

/- One with a sign times infinity is infinity with this sign. -/
theorem signum_mul_infinity
    (negative : Bool) :
    single.mul
        (single.round
          (double.value (double.round (.finite negative 1 0))))
        single.infinityBits =
      single.withSign negative single.infinityBits := by
  cases negative <;> decide +kernel

/-
  So a number that is too great for single precision becomes
  the infinity that it is rounded to.
-/
theorem toReal_eq
    (d : Decimal) :
    d.toReal = ⟨d.toSingle, 0⟩ := by
  unfold toReal
  split
  next => rfl
  next hGreat =>
    rcases exists_signum d.value_toDouble_ne_nan with
      ⟨negative, bits, hSignum, hBits, hRound⟩
    have hInfinite : bits = single.infinityBits := by
      apply Nat.le_antisymm hBits
      apply Nat.not_lt.mp
      intro hLess
      apply hGreat
      rw [Real.isFinite, Real.single, d.toNat_toSingle, hRound,
        single.value_withSign negative hLess]
      rfl
    rw [hSignum, signum_mul_infinity, ← hInfinite, ← hRound]
    rfl

end Decimal

/-
  The numbers that text spells: integers, and reals without an
  extension that are no NaN.
-/
def Number.Spelled : Number → Prop
  | .integer _ => True
  | .real v => v.single ≠ .nan ∧ v.extension = 0

/- So are those of all literals. -/
theorem Number.spelled_ofLiteral
    {token : List UInt8}
    {n : Number}
    (h : Number.ofLiteral token = .ok (some n)) :
    n.Spelled := by
  rw [ofLiteral_eq, ofGrammar] at h
  split at h
  · unfold RadixLiteral.read at h
    split at h
    · cases h
    · split at h
      · cases h
      · split at h <;> cases h
        trivial
  · rw [Except.ok.injEq, Option.map_eq_some_iff] at h
    rcases h with ⟨d, -, rfl⟩
    unfold Decimal.toNumber
    split
    · trivial
    · rw [d.toReal_eq]
      exact ⟨d.single_toSingle_ne_nan, rfl⟩

/- A real that is no NaN is finite or infinite. -/
theorem Real.isFinite_of_ne_nan
    {v : Real}
    (hValue : v.single ≠ .nan)
    (hInfinite : v.isInfinite = false) :
    v.isFinite = true := by
  unfold isInfinite at hInfinite
  unfold isFinite
  cases hSingle : v.single with
  | nan => exact absurd hSingle hValue
  | infinite negative =>
      rw [hSingle] at hInfinite
      contradiction
  | finite negative m e => rfl

end PostScript
