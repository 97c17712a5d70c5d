import PostScript.Numeric.Number
import PostScript.Proofs.Numeric.Nearest

/-
  This file says which exact numbers integers and reals are,
  and shows that rounding to a whole number and to single
  precision is rounding of these exact numbers.

  Key definitions include:
    * `Real.exact`
    * `Number.exact`
    * `roundAway`

  Main results:
    * `Number.rational_value`
    * `Ieee.roundHalfAway_eq`
    * `FixedPoint.rounds_toSingle`
-/

namespace PostScript

open Ieee

------------------------------------------------------------
-- Exact Numbers
------------------------------------------------------------

/-
  The exact value of a finite real. Beside a normal number the
  extension counts, in units of 2^-16 of its last place.
-/
def Real.exact
    (r : Real) : Option ℚ :=
  r.single.rational.map (fun x =>
    match lastPlace r.bits with
    | some place =>
        x + (r.extension.toInt : ℚ) * (2 : ℚ) ^ (place - 16)
    | none => x)

/- The exact value of a finite number. -/
def Number.exact : Number → Option ℚ
  | .integer v => some (v.toInt : ℚ)
  | .real r => r.exact

/- A whole number is its sign in front of its magnitude. -/
theorem Ieee.Value.signed_natAbs
    (n : Int) :
    signed (n < 0) n.natAbs = n := by
  unfold signed
  simp only [decide_eq_true_eq]
  split <;> omega

/- The last place of a normal number is its exponent. -/
theorem Real.lastPlace_eq_some
    {bits : UInt32}
    {place : Int}
    (h : lastPlace bits = some place) :
    Ieee.single.exponentField bits.toNat ≠
        Ieee.single.topExponent ∧
      place = Ieee.single.exponent bits.toNat := by
  unfold lastPlace at h
  dsimp only at h
  split at h
  · contradiction
  next hNormal =>
    rw [not_or] at hNormal
    cases h
    exact ⟨hNormal.2, rfl⟩

/- The value of a real is its exact value. -/
theorem Real.rational_value
    (r : Real) :
    r.value.rational = r.exact := by
  unfold value exact
  cases hPlace : lastPlace r.bits with
  | none =>
      cases r.single <;> rfl
  | some place =>
      rcases lastPlace_eq_some hPlace with ⟨hTop, hExponent⟩
      have hSingle := Ieee.single.value_eq r.bits.toNat hTop
      unfold single
      rw [hSingle, ← hExponent]
      dsimp only
      rw [Value.rational_finite, Value.rational_finite,
        Option.map_some, Value.signed_natAbs]
      congr 1
      have hSplit :
          (2 : ℚ) ^ place =
            (power 2 16 : Nat) * (2 : ℚ) ^ (place - 16) := by
        rw [cast_power, ← zpow_natCast,
          ← zpow_add₀ (by norm_num : (2 : ℚ) ≠ 0)]
        congr 1
        push_cast
        ring
      rw [hSplit]
      push_cast
      ring

/- The value of a number is its exact value. -/
theorem Number.rational_value
    (n : Number) :
    n.value.rational = n.exact := by
  cases n with
  | integer v =>
      unfold value exact wholeValue
      dsimp only
      rw [Value.rational_finite, Value.signed_natAbs, zpow_zero,
        mul_one]
  | real r => exact r.rational_value

/- A number has an exact value unless it is not finite. -/
theorem Number.exact_eq_none_iff
    (n : Number) :
    n.exact = none ↔
      n.value = .nan ∨
        ∃ negative, n.value = .infinite negative := by
  rw [← n.rational_value]
  cases n.value with
  | nan => simp [Value.rational]
  | infinite negative => simp [Value.rational]
  | finite negative m e => simp

------------------------------------------------------------
-- Whole Numbers
------------------------------------------------------------

/- The nearest whole number, halves away from zero. -/
def roundAway
    (x : ℚ) : Int :=
  if x < 0 then -round (-x) else round x

/- Whole numbers stay as they are. -/
theorem roundAway_intCast
    (n : Int) :
    roundAway n = n := by
  unfold roundAway
  rw [← Int.cast_neg, round_intCast, round_intCast, neg_neg,
    ite_self]

/- Quotients are rounded half up by whole numbers alone. -/
theorem Ieee.roundHalfUp_eq
    (num : Nat)
    {den : Nat}
    (hDen : 0 < den) :
    (roundHalfUp num den : Int) = round ((num : ℚ) / den) := by
  have hDenCast : (den : ℚ) ≠ 0 := by
    exact_mod_cast Nat.pos_iff_ne_zero.mp hDen
  have hSum :
      (num : ℚ) / den + 1 / 2 =
        ((2 * num + den : Nat) : ℚ) / ((2 * den : Nat) : ℚ) := by
    push_cast
    field_simp
  rw [round_eq, hSum]
  unfold roundHalfUp
  exact_mod_cast
    (Rat.floor_natCast_div_natCast (2 * num + den)
      (2 * den)).symm

/- Rounding `n * 2 ^ k` is rounding this exact number. -/
theorem Ieee.roundHalfAway_eq
    (n k : Int) :
    roundHalfAway n k = roundAway ((n : ℚ) * (2 : ℚ) ^ k) := by
  have hPower : (0 : ℚ) < (2 : ℚ) ^ k :=
    zpow_pos (by norm_num) k
  have hRound :
      (roundHalfUp (n.natAbs * power 2 k.toNat)
          (power 2 (-k).toNat) : Int) =
        round ((n.natAbs : ℚ) * (2 : ℚ) ^ k) := by
    rw [roundHalfUp_eq _ (power_two_pos _),
      ← dyadic_eq_quotient]
    rfl
  unfold roundHalfAway roundAway
  by_cases hn : n < 0
  · have hx : (n : ℚ) * (2 : ℚ) ^ k < 0 :=
      mul_neg_of_neg_of_pos (by exact_mod_cast hn) hPower
    have hAbs : (n.natAbs : ℚ) = -n := by
      rw [Nat.cast_natAbs, abs_of_neg hn, Int.cast_neg]
    rw [if_pos hx, decide_eq_true hn]
    rw [hAbs, neg_mul] at hRound
    rw [← hRound]
    rfl
  · have hx : ¬ (n : ℚ) * (2 : ℚ) ^ k < 0 := by
      have hCast : (0 : ℚ) ≤ n := by
        exact_mod_cast Int.not_lt.mp hn
      exact not_lt.mpr (by positivity)
    have hAbs : (n.natAbs : ℚ) = n := by
      rw [Nat.cast_natAbs, abs_of_nonneg (Int.not_lt.mp hn)]
    rw [if_neg hx, decide_eq_false hn]
    rw [hAbs] at hRound
    rw [← hRound]
    rfl

------------------------------------------------------------
-- Single Precision
------------------------------------------------------------

/- A fixed-point number is rounded to single precision. -/
theorem FixedPoint.rounds_toSingle
    (x : FixedPoint) :
    single.Rounds
      ((x.mantissa.toInt : ℚ) / (2 : ℚ) ^ x.scale)
      x.toSingle.toNat := by
  have hSign :
      x.mantissa.toInt.natAbs = 0 →
        decide (x.mantissa.toInt < 0) = false := by
    intro h
    rw [decide_eq_false_iff_not]
    omega
  have hRounds :=
    single.rounds_round (by decide) hSign x.nearest_lt
  rw [Value.signed_natAbs, zpow_neg, zpow_natCast,
    ← div_eq_mul_inv] at hRounds
  rw [x.toNat_toSingle]
  exact hRounds

/- So is an integer. -/
theorem Number.rounds_toSingle
    (v : Int32) :
    single.Rounds (v.toInt : ℚ)
      (Number.integer v).toSingle.toNat := by
  have hRounds := FixedPoint.rounds_toSingle ⟨v, 0⟩
  rw [pow_zero, div_one] at hRounds
  exact hRounds

end PostScript
