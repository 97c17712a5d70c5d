import PostScript.Proofs.Numeric.Leading

/-
  This file shows that a number is rounded to itself if its
  significand fits the field of a floating-point format and its
  exponent is in range, so that double precision holds the
  products of single-precision numbers with powers of two.

  Main results:
    * `Ieee.Format.dyadic_nearest_held`
    * `Ieee.Format.value_nearest_held`
    * `Ieee.double_nearest_held`
    * `Ieee.double_held`
-/

namespace PostScript.Ieee

/- A number of so many bits is below a power of two. -/
theorem dyadic_lt
    {m k : Nat}
    (hm : m < power 2 k)
    (e : Int) :
    dyadic m e < (2 : ℚ) ^ ((k : Int) + e) := by
  have hCast : (m : ℚ) < (2 : ℚ) ^ k := by
    rw [← cast_power]
    exact_mod_cast hm
  rw [zpow_add₀ (by norm_num), zpow_natCast]
  exact mul_lt_mul_of_pos_right hCast
    (zpow_pos (by norm_num) e)

/- A power of two at a place is a power of two. -/
theorem dyadic_power
    (k : Nat)
    (e : Int) :
    dyadic (power 2 k) e = (2 : ℚ) ^ ((k : Int) + e) := by
  unfold dyadic
  rw [cast_power, zpow_add₀ (by norm_num), zpow_natCast]

/- A number that has this bit is not below it. -/
theorem le_dyadic
    {m k : Nat}
    (hm : power 2 k ≤ m)
    (e : Int) :
    (2 : ℚ) ^ ((k : Int) + e) ≤ dyadic m e := by
  rw [← dyadic_power]
  have hCast : ((power 2 k : Nat) : ℚ) ≤ m := by
    exact_mod_cast hm
  exact mul_le_mul_of_nonneg_right hCast
    (zpow_nonneg (by norm_num) e)

namespace Format

variable (F : Format)

/-
  A fraction that is a significand at a place is rounded to
  this very number. The significand need not fill its field.
-/
theorem dyadic_nearest_held
    (hFraction : 0 < F.fractionBits)
    {num den m : Nat}
    {e : Int}
    (hNum : 0 < num)
    (hDen : 0 < den)
    (hValue : (num : ℚ) / den = dyadic m e)
    (hSignificand : m < power 2 (F.fractionBits + 1))
    (hExponent : F.leastExponent ≤ e)
    (hFinite : F.nearest num den < F.infinityBits) :
    dyadic (F.significand (F.nearest num den))
        (F.exponent (F.nearest num den)) =
      dyadic m e := by
  have hTwo : (2 : ℚ) ≠ 0 := by norm_num
  have hPos : 0 < (num : ℚ) / den := by
    have hNumCast : (0 : ℚ) < num := by exact_mod_cast hNum
    have hDenCast : (0 : ℚ) < den := by exact_mod_cast hDen
    positivity
  obtain ⟨p, hp⟩ : ∃ p, p = F.place ((num : ℚ) / den) :=
    ⟨_, rfl⟩
  -- The place of the last bit that is kept is not above `e`.
  have hPlace : p ≤ e := by
    have hUpper := dyadic_lt hSignificand e
    rw [← hValue] at hUpper
    have hLog :=
      (Int.lt_zpow_iff_log_lt (b := 2) (by norm_num)
        hPos).mp (by exact_mod_cast hUpper)
    rw [hp]
    unfold place
    push_cast at hLog
    omega
  obtain ⟨k, hk⟩ := Int.le.dest hPlace
  have hUnits :
      ((num * power 2 (-p).toNat : Nat) : ℚ) /
          ((den * power 2 p.toNat : Nat) : ℚ) =
        ((m * power 2 k : Nat) : ℚ) / ((1 : Nat) : ℚ) := by
    rw [quotient_place, hValue, ← hk]
    unfold dyadic
    rw [zpow_add₀ hTwo, zpow_natCast]
    push_cast
    rw [cast_power]
    field_simp
  have hWhole :
      m * power 2 k =
        roundHalfEven (num * power 2 (-p).toNat)
          (den * power 2 p.toNat) := by
    rw [roundHalfEven_congr
      (Nat.mul_pos hDen (power_two_pos _)) Nat.one_pos hUnits,
      roundHalfEven_one]
  rw [(F.dyadic_nearest hFraction hNum hDen hp hWhole
    (F.unclamped_le hFinite)).1, ← hk]
  unfold dyadic
  rw [zpow_add₀ hTwo, zpow_natCast]
  push_cast
  rw [cast_power]
  ring

/- Behind a sign such a number keeps its magnitude. -/
theorem value_nearest_held
    (hFraction : 0 < F.fractionBits)
    (negative : Bool)
    {num den m : Nat}
    {e : Int}
    (hDen : 0 < den)
    (hValue : (num : ℚ) / den = dyadic m e)
    (hSignificand : m < power 2 (F.fractionBits + 1))
    (hExponent : F.leastExponent ≤ e)
    (hFinite : F.nearest num den < F.infinityBits) :
    ∃ m' e',
      F.value (F.withSign negative (F.nearest num den)) =
          .finite negative m' e' ∧
        dyadic m' e' = dyadic m e := by
  refine ⟨_, _, F.value_withSign negative hFinite, ?_⟩
  rcases Nat.eq_zero_or_pos num with rfl | hNum
  · rw [← hValue]
    simp [nearest, significand, exponentField, dyadic]
  · exact F.dyadic_nearest_held hFraction hNum hDen hValue
      hSignificand hExponent hFinite

end Format

/-
  Double precision holds the numbers of up to 53 bits whose
  exponents are far from its ends.
-/
theorem double_nearest_held
    (negative : Bool)
    {num den m : Nat}
    {e : Int}
    (hDen : 0 < den)
    (hValue : (num : ℚ) / den = dyadic m e)
    (hSignificand : m < power 2 53)
    (hLow : -1000 ≤ e)
    (hHigh : e ≤ 900) :
    ∃ m' e',
      double.value
            (double.withSign negative (double.nearest num den)) =
          .finite negative m' e' ∧
        dyadic m' e' = dyadic m e := by
  have hLeast : double.leastExponent = -1074 := by decide
  have hTop : double.topExponent = 2047 := by decide
  have hBits : double.fractionBits = 52 := rfl
  refine double.value_nearest_held (by decide) negative hDen
    hValue hSignificand (by omega) ?_
  have hBelow :
      (num : ℚ) / den < (2 : ℚ) ^ ((952 : Int) + 1) := by
    rw [hValue]
    refine (dyadic_lt hSignificand e).trans_le ?_
    exact zpow_le_zpow_right₀ (by norm_num) (by omega)
  exact double.nearest_lt hDen hBelow (by omega) (by omega)

/- They are rounded to themselves. -/
theorem double_held
    (negative : Bool)
    {m : Nat}
    {e : Int}
    (hSignificand : m < power 2 53)
    (hLow : -1000 ≤ e)
    (hHigh : e ≤ 900) :
    ∃ m' e',
      double.value (double.round (.finite negative m e)) =
          .finite negative m' e' ∧
        dyadic m' e' = dyadic m e :=
  double_nearest_held negative (power_two_pos _)
    (dyadic_eq_quotient m e).symm hSignificand hLow hHigh

end PostScript.Ieee
