import PostScript.NumberArray
import PostScript.Proofs.Numeric.Extension

/-
  This file shows that the mantissa of a number is computed
  without loss in double precision: it is the exact number
  times the power of two, rounded half away from zero, if this
  fits.

  Key definitions include:
    * `Number.mantissaAt`
    * `FitsBits`

  Main results:
    * `Number.rational_toDouble`
    * `Number.value_toDouble`
    * `NumberFormat.rational_scaled`
    * `NumberFormat.value_scaled`
    * `NumberFormat.mantissa_eq`
    * `NumberFormat.mantissa_eq_ok_iff`
    * `NumberFormat.mantissa_eq_error`
-/

namespace PostScript

open Ieee

------------------------------------------------------------
-- Numbers in Double Precision
------------------------------------------------------------

/-
  An infinity or a NaN is not changed by a positive factor.
-/
theorem Ieee.Value.mul_positive
    {v w : Value}
    {y : ℚ}
    (hv : v.isFinite = false)
    (hw : w.rational = some y)
    (hPositive : 0 < y) :
    v.mul w = v := by
  rcases exists_finite hw with ⟨negative, m, e, rfl, rfl⟩
  have hPower : (0 : ℚ) < (2 : ℚ) ^ e :=
    zpow_pos (by norm_num) e
  have hSigned : 0 < signed negative m := by
    exact_mod_cast pos_of_mul_pos_left hPositive hPower.le
  cases negative with
  | true =>
      simp only [signed, if_true] at hSigned
      omega
  | false =>
      have hm : m ≠ 0 := by
        rintro rfl
        exact absurd hSigned (by decide)
      cases v with
      | nan => rfl
      | infinite n =>
          rw [mul, if_neg hm, Bool.bne_false]
      | finite => contradiction

namespace Number

/-
  The mantissa of a finite number at a binary scale: its exact
  value times `2 ^ scale`, rounded half away from zero.
-/
def mantissaAt
    (n : Number)
    (scale : Nat) : Option Int :=
  n.exact.map (fun x => roundAway (x * (2 : ℚ) ^ scale))

/- Integers are far from the ends of double precision. -/
theorem natAbs_toInt_lt
    (v : Int32) :
    v.toInt.natAbs < power 2 53 := by
  have hBits : power 2 53 = 9007199254740992 := rfl
  have hLeast := v.le_toInt
  have hMost := v.toInt_lt
  omega

/- In double precision a number has its exact value. -/
theorem rational_toDouble
    (n : Number) :
    (double.value n.toDouble.toNat).rational = n.exact := by
  cases n with
  | integer v =>
      rw [toDouble, toNat_double_round]
      exact rational_double_ofInt (natAbs_toInt_lt v)
  | real r => exact r.rational_toDouble

/- There is room to multiply it by powers of two. -/
theorem fitsTo_exact
    {n : Number}
    {x : ℚ}
    (hx : n.exact = some x) :
    FitsTo 104 x := by
  cases n with
  | integer v =>
      cases hx
      refine ⟨v.toInt, 0, ?_, natAbs_toInt_lt v, by decide,
        by decide⟩
      rw [zpow_zero, mul_one]
  | real r => exact r.fitsTo_exact hx

/- An infinity or a NaN is the same in double precision. -/
theorem value_toDouble
    {n : Number}
    (hExact : n.exact = none) :
    double.value n.toDouble.toNat = n.value := by
  cases n with
  | integer v => contradiction
  | real r => exact r.value_toDouble hExact

end Number

------------------------------------------------------------
-- Mantissas
------------------------------------------------------------

/- Whether an integer fits so many bits with its sign. -/
def FitsBits
    (bits : Nat)
    (m : Int) : Prop :=
  -(2 ^ (bits - 1)) ≤ m ∧ m < 2 ^ (bits - 1)

instance
    (bits : Nat)
    (m : Int) :
    Decidable (FitsBits bits m) := by
  unfold FitsBits
  infer_instance

namespace NumberFormat

/- The power of two of a scale is exact. -/
theorem rational_greatestScale
    (scale : UInt8) :
    (double.value (double.ofInt
        (power 2 (min scale.toNat greatestScale)))).rational =
      some ((2 : ℚ) ^ min scale.toNat greatestScale) := by
  have hScale : min scale.toNat greatestScale ≤ 31 :=
    Nat.min_le_right _ _
  have hLess :
      power 2 (min scale.toNat greatestScale) < power 2 53 :=
    Nat.pow_lt_pow_right (by decide) (by omega)
  rw [rational_double_ofInt (by simpa using hLess),
    Int.cast_natCast, cast_power]

/- The product is rounded as the exact product is. -/
theorem rational_scaled
    {n : Number}
    {x : ℚ}
    (hx : n.exact = some x)
    (scale : UInt8) :
    (double.value (scaled n scale)).rational =
      some (roundAway
        (x * (2 : ℚ) ^ min scale.toNat greatestScale) : ℚ) := by
  have hScale : min scale.toNat greatestScale ≤ 31 :=
    Nat.min_le_right _ _
  have hFits := (Number.fitsTo_exact hx).scale
    (k := min scale.toNat greatestScale) (by omega)
  rw [← n.rational_toDouble] at hx
  exact rational_double_nearestWhole
    (rational_double_mul hx (rational_greatestScale scale)
      hFits)
    hFits

/- What is not finite stays what it is. -/
theorem value_scaled
    {n : Number}
    (hExact : n.exact = none)
    (scale : UInt8) :
    double.value (scaled n scale) = n.value := by
  have hFinite : n.value.isFinite = false := by
    rcases n.exact_eq_none_iff.mp hExact with h | ⟨_, h⟩ <;>
      rw [h] <;> rfl
  have hWhole : n.value.nearestWhole = n.value := by
    rcases n.exact_eq_none_iff.mp hExact with h | ⟨_, h⟩ <;>
      rw [h] <;> rfl
  have hProduct :=
    Value.mul_positive hFinite (rational_greatestScale scale)
      (by positivity)
  unfold scaled Format.nearestWhole Format.mul
  rw [Number.value_toDouble hExact, hProduct,
    value_double_round hFinite, hWhole,
    value_double_round hFinite]

/- The limits of a mantissa are exact. -/
theorem rational_leastMantissa
    {bits : Nat}
    (hBits : bits ≤ 53) :
    (double.value (leastMantissa bits)).rational =
      some (-(2 : ℚ) ^ (bits - 1)) := by
  have hLess : power 2 (bits - 1) < power 2 53 :=
    Nat.pow_lt_pow_right (by decide) (by omega)
  rw [leastMantissa, rational_double_ofInt (by omega),
    Int.cast_neg, Int.cast_natCast, cast_power]

theorem rational_greatestMantissa
    {bits : Nat}
    (hBits : bits ≤ 53) :
    (double.value (greatestMantissa bits)).rational =
      some ((2 : ℚ) ^ (bits - 1) - 1) := by
  have hSome : 0 < power 2 (bits - 1) := power_two_pos _
  have hLess : power 2 (bits - 1) < power 2 53 :=
    Nat.pow_lt_pow_right (by decide) (by omega)
  rw [greatestMantissa, rational_double_ofInt (by omega),
    Int.cast_sub, Int.cast_natCast, cast_power, Int.cast_one]

/- A whole number is between them exactly if it fits. -/
theorem exceeds_iff
    {bits : Nat}
    {v : Value}
    {m : Int}
    (hBits : bits ≤ 53)
    (hv : v.rational = some (m : ℚ)) :
    exceeds bits v = true ↔ ¬ FitsBits bits m := by
  have hBelow :
      (m : ℚ) < -2 ^ (bits - 1) ↔ m < -(2 ^ (bits - 1)) := by
    exact_mod_cast Iff.rfl
  have hAbove :
      (2 : ℚ) ^ (bits - 1) - 1 < m ↔
        2 ^ (bits - 1) - 1 < m := by
    exact_mod_cast Iff.rfl
  rw [exceeds, Bool.or_eq_true,
    Value.isLess_iff hv (rational_leastMantissa hBits),
    Value.isLess_iff (rational_greatestMantissa hBits) hv,
    hBelow, hAbove]
  unfold FitsBits
  omega

/- Infinities are never between them. -/
theorem exceeds_infinite
    {bits : Nat}
    (hBits : bits ≤ 53)
    (negative : Bool) :
    exceeds bits (.infinite negative) = true := by
  rcases Value.exists_finite (rational_leastMantissa hBits) with
    ⟨_, _, _, hLeast, -⟩
  rcases Value.exists_finite (rational_greatestMantissa hBits)
    with ⟨_, _, _, hGreatest, -⟩
  rw [exceeds, hLeast, hGreatest]
  cases negative <;> rfl

/-
  A mantissa is the exact number times the power of two,
  rounded half away from zero, if this fits. Infinities do not
  fit, and a NaN has none.
-/
theorem mantissa_eq
    (n : Number)
    (scale : UInt8)
    {bits : Nat}
    (hBits : bits ≤ 53) :
    mantissa n scale bits =
      match n.mantissaAt (min scale.toNat greatestScale) with
      | some m =>
          if FitsBits bits m then
            .ok m
          else
            .error .doesNotFit
      | none =>
          if n.value = .nan then
            .error .notFinite
          else
            .error .doesNotFit := by
  unfold mantissa
  dsimp only
  cases hx : n.exact with
  | none =>
      rw [Number.mantissaAt, hx, value_scaled hx]
      rcases n.exact_eq_none_iff.mp hx with h | ⟨negative, h⟩
      · rw [h]
        rfl
      · rw [h, exceeds_infinite hBits]
        rfl
  | some x =>
      have hScaled := rational_scaled hx scale
      rw [Number.mantissaAt, hx, Option.map_some]
      dsimp only
      generalize roundAway
        (x * (2 : ℚ) ^ min scale.toNat greatestScale) = m
        at hScaled ⊢
      have hNumber : double.value (scaled n scale) ≠ .nan := by
        intro hNan
        rw [hNan] at hScaled
        contradiction
      rw [if_neg hNumber, Value.truncate_eq hScaled]
      by_cases hFits : FitsBits bits m
      · have hInside := (exceeds_iff hBits hScaled).not.mpr
          (not_not.mpr hFits)
        rw [if_neg hInside, if_pos hFits]
        rfl
      · rw [if_pos ((exceeds_iff hBits hScaled).mpr hFits),
          if_neg hFits]

/- There is a mantissa if the exact number fits. -/
theorem mantissa_eq_ok_iff
    (n : Number)
    {scale : UInt8}
    (hScale : scale.toNat ≤ 31)
    {bits : Nat}
    (hBits : bits ≤ 53)
    {m : Int} :
    mantissa n scale bits = .ok m ↔
      n.mantissaAt scale.toNat = some m ∧ FitsBits bits m := by
  have hClamp :
      min scale.toNat greatestScale = scale.toNat :=
    Nat.min_eq_left hScale
  rw [mantissa_eq n scale hBits, hClamp]
  cases n.mantissaAt scale.toNat with
  | none =>
      dsimp only
      split <;> simp
  | some k =>
      dsimp only
      rw [Option.some.injEq]
      split
      next hFits =>
        rw [Except.ok.injEq]
        constructor
        · rintro rfl
          exact ⟨rfl, hFits⟩
        · exact And.left
      next hFits =>
        constructor
        · exact nofun
        · rintro ⟨rfl, h⟩
          exact absurd h hFits

/- The error tells what is no number from what is too far. -/
theorem mantissa_eq_error
    {n : Number}
    {scale : UInt8}
    {bits : Nat}
    {cause : Cause}
    (hBits : bits ≤ 53)
    (h : mantissa n scale bits = .error cause) :
    cause.kind =
      if n.value = .nan then .undefinedResult
      else .rangeCheck := by
  rw [mantissa_eq n scale hBits] at h
  cases hm : n.mantissaAt (min scale.toNat greatestScale) with
  | none =>
      rw [hm] at h
      dsimp only at h
      split at h
      next hNan =>
        cases h
        rw [if_pos hNan]
        rfl
      next hNumber =>
        cases h
        rw [if_neg hNumber]
        rfl
  | some m =>
      have hNumber : n.value ≠ .nan := by
        intro hNan
        have hNone := n.exact_eq_none_iff.mpr (.inl hNan)
        rw [Number.mantissaAt, hNone] at hm
        contradiction
      rw [hm] at h
      dsimp only at h
      split at h
      · contradiction
      · cases h
        rw [if_neg hNumber]
        rfl

end NumberFormat

end PostScript
