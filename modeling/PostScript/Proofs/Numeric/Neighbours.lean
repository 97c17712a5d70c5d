import PostScript.Proofs.Numeric.Held

/-
  This file shows what is rounded to a normal number in single
  precision: all that is less than half of its last place away.
  Below a power of two the places are half as wide, so that what
  is more than a quarter of the place below it is rounded to the
  number before it.

  Main results:
    * `Ieee.roundHalfEven_beside`
    * `Ieee.Format.place_dyadic`
    * `Ieee.Format.nearest_units`
    * `Ieee.single_nearest_same`
    * `Ieee.single_nearest_before`
    * `Ieee.single_before_power`
-/

namespace PostScript.Ieee

------------------------------------------------------------
-- Units of a Place
------------------------------------------------------------

/-
  A whole number of units and less than half a unit is rounded
  to the whole number.
-/
theorem roundHalfEven_beside
    {N m den : Nat}
    {t : Int}
    (hN : (N : Int) = m * den + t)
    (hLow : -(den : Int) < 2 * t)
    (hHigh : 2 * t < den) :
    roundHalfEven N den = m := by
  have hDen : 0 < den := by omega
  have hDenCast : (0 : ℚ) < den := by exact_mod_cast hDen
  have hError := (roundHalfEven_error N hDen).1
  generalize roundHalfEven N den = q at *
  have hQuotient : (N : ℚ) / den = m + (t : ℚ) / den := by
    have hCast : (N : ℚ) = m * den + t := by exact_mod_cast hN
    rw [hCast]
    field_simp
  have hPart : |(t : ℚ) / den| < 1 / 2 := by
    have hLowCast : -(den : ℚ) < 2 * t := by
      exact_mod_cast hLow
    have hHighCast : 2 * (t : ℚ) < den := by
      exact_mod_cast hHigh
    rw [abs_div, abs_of_pos hDenCast, div_lt_iff₀ hDenCast,
      abs_lt]
    constructor <;> linarith
  -- Two whole numbers that are so near are the same.
  have hNear : |((m : Int) : ℚ) - (q : Int)| < 1 := by
    rw [hQuotient] at hError
    rw [abs_le] at hError
    rw [abs_lt] at hPart ⊢
    push_cast at hError ⊢
    constructor <;> linarith
  have hWhole : |(m : Int) - q| < 1 := by exact_mod_cast hNear
  rw [Int.abs_lt_one_iff] at hWhole
  omega

namespace Format

variable (F : Format)

/- The place of a number is told by its leading bit. -/
theorem place_dyadic
    {N k : Nat}
    (hLow : 2 ^ k ≤ N)
    (hHigh : N < 2 ^ (k + 1))
    (e : Int) :
    F.place (dyadic N e) =
      max F.leastExponent (k + e - F.fractionBits) := by
  have hLower := le_dyadic hLow e
  have hUpper := dyadic_lt hHigh e
  rw [Nat.cast_succ, add_right_comm] at hUpper
  unfold place
  rw [log_eq_of_bounds hLower hUpper]

/-
  A number of smaller units is rounded to whole units of its
  place.
-/
theorem nearest_units
    {num den N k : Nat}
    {p : Int}
    (hN : 0 < N)
    (hDen : 0 < den)
    (hValue : (num : ℚ) / den = dyadic N (p - k))
    (hPlace : F.place (dyadic N (p - k)) = p) :
    F.nearest num den =
      min F.infinityBits
        ((p - F.leastExponent).toNat * power 2 F.fractionBits +
          roundHalfEven N (power 2 k)) := by
  have hNum : 0 < num := by
    rcases Nat.eq_zero_or_pos num with rfl | hNum
    · rw [Nat.cast_zero, zero_div] at hValue
      exact absurd hValue (dyadic_pos hN _).ne
    · exact hNum
  have hUnits :
      ((num * power 2 (-p).toNat : Nat) : ℚ) /
          ((den * power 2 p.toNat : Nat) : ℚ) =
        (N : ℚ) / (power 2 k : Nat) := by
    rw [quotient_place, hValue, cast_power]
    unfold dyadic
    rw [zpow_sub₀ (by norm_num), zpow_natCast]
    field_simp
  rw [← hValue] at hPlace
  rw [F.nearest_eq_min,
    F.unclamped_eq hNum hDen hPlace.symm rfl,
    roundHalfEven_congr
      (Nat.mul_pos hDen (power_two_pos _))
      (power_two_pos _) hUnits]

end Format

------------------------------------------------------------
-- Single Precision
------------------------------------------------------------

section

variable {bits N num den : Nat}
variable {t : Int}
variable (hBits : bits < single.infinityBits)
variable
  (hN : (N : Int) = single.significand bits * 2 ^ 16 + t)
variable (hLow : -(2 ^ 15) < t)
variable (hDen : 0 < den)
variable
  (hValue :
    (num : ℚ) / den = dyadic N (single.exponent bits - 16))
include hBits hN hLow hDen hValue

/-
  What is less than half a place away from a normal number is
  rounded to it, if there are no narrower places below it.
-/
theorem single_nearest_beside
    (hHigh : t < 2 ^ 15)
    (hNormal : 2 ^ 23 ≤ single.significand bits)
    (hPlace :
      2 ^ 39 ≤ N ∨
        single.exponent bits = single.leastExponent) :
    single.nearest num den = bits := by
  have hSame := single.bits_eq bits hBits
  have hMost : single.significand bits < 2 ^ 24 :=
    single.significand_lt bits
  have hFraction : single.fractionBits = 23 := rfl
  have hUnit : power 2 16 = 65536 := rfl
  have hLeast :
      single.leastExponent ≤ single.exponent bits := by
    unfold Format.exponent
    omega
  have hUnits :
      single.place (dyadic N (single.exponent bits - 16)) =
        single.exponent bits := by
    rcases Nat.lt_or_ge N (2 ^ 39) with hLess | hMore
    · rw [single.place_dyadic (k := 38) (by omega) hLess]
      omega
    · rw [single.place_dyadic (k := 39) hMore (by omega)]
      omega
  have hRound :
      roundHalfEven N (power 2 16) =
        single.significand bits := by
    apply roundHalfEven_beside (t := t) <;> rw [hUnit] <;>
      omega
  rw [single.nearest_units (k := 16) (by omega) hDen hValue
    hUnits, hRound, hSame]
  exact Nat.min_eq_right hBits.le

/-
  Below a power of two there are narrower places, and a number
  is rounded to whole units of half the place.
-/
theorem single_nearest_below
    (hPower : single.significand bits = 2 ^ 23)
    (hAbove : single.leastExponent < single.exponent bits)
    (hBelow : t < 0)
    (hRound : roundHalfEven N (power 2 15) ≤ 2 ^ 24) :
    2 ^ 24 + single.nearest num den =
      bits + roundHalfEven N (power 2 15) := by
  have hSame := single.bits_eq bits hBits
  have hFraction : single.fractionBits = 23 := rfl
  have hUnit : power 2 23 = 8388608 := rfl
  obtain ⟨p, hp⟩ : ∃ p, p = single.exponent bits - 1 := ⟨_, rfl⟩
  have hHalves :
      (num : ℚ) / den = dyadic N (p - (15 : Nat)) := by
    rw [hValue, hp]
    congr 1
    omega
  have hUnits : single.place (dyadic N (p - (15 : Nat))) = p := by
    rw [single.place_dyadic (k := 38) (by omega) (by omega)]
    omega
  rw [single.nearest_units (by omega) hDen hHalves hUnits]
  rw [hFraction, hUnit] at hSame ⊢
  generalize single.infinityBits = top at *
  omega

/-
  Down to a quarter of the place a number is rounded to the
  power of two,
-/
theorem single_nearest_power
    (hPower : single.significand bits = 2 ^ 23)
    (hAbove : single.leastExponent < single.exponent bits)
    (hBelow : t < 0)
    (hNear : -(2 ^ 14) ≤ t) :
    single.nearest num den = bits := by
  have hUnit : power 2 15 = 32768 := rfl
  have hRound : roundHalfEven N (power 2 15) = 2 ^ 24 := by
    rcases Int.lt_or_eq_of_le hNear with hLess | hTie
    · apply roundHalfEven_beside (t := t) <;> rw [hUnit] <;>
        omega
    · -- Both significands are as near, and this one is even.
      have hHalfway : N = 2 ^ 39 - 2 ^ 14 := by omega
      rw [hHalfway]
      decide
  have hBits := single_nearest_below hBits hN hLow hDen hValue
    hPower hAbove hBelow hRound.le
  omega

/- and further below it to the number before. -/
theorem single_nearest_before
    (hPower : single.significand bits = 2 ^ 23)
    (hAbove : single.leastExponent < single.exponent bits)
    (hFar : t < -(2 ^ 14)) :
    single.nearest num den + 1 = bits := by
  have hUnit : power 2 15 = 32768 := rfl
  have hRound : roundHalfEven N (power 2 15) = 2 ^ 24 - 1 := by
    apply roundHalfEven_beside (t := t + 2 ^ 15) <;>
      rw [hUnit] <;> omega
  have hBits := single_nearest_below hBits hN hLow hDen hValue
    hPower hAbove (by omega) (by omega)
  omega

/-
  So a number is rounded to the normal number that is less than
  half a place away, unless it is more than a quarter of the
  place below a power of two.
-/
theorem single_nearest_same
    (hHigh : t < 2 ^ 15)
    (hNormal : 2 ^ 23 ≤ single.significand bits)
    (hNear :
      single.significand bits = 2 ^ 23 →
        single.leastExponent < single.exponent bits →
          -(2 ^ 14) ≤ t) :
    single.nearest num den = bits := by
  have hLeast :
      single.leastExponent ≤ single.exponent bits := by
    unfold Format.exponent
    omega
  by_cases hPlace :
      2 ^ 39 ≤ N ∨ single.exponent bits = single.leastExponent
  · exact single_nearest_beside hBits hN hLow hDen hValue
      hHigh hNormal hPlace
  · have hPower : single.significand bits = 2 ^ 23 := by omega
    have hAbove :
        single.leastExponent < single.exponent bits := by
      omega
    exact single_nearest_power hBits hN hLow hDen hValue
      hPower hAbove (by omega) (hNear hPower hAbove)

end

/-
  The number before a power of two has the greatest significand
  at the place below.
-/
theorem single_before_power
    {b : Nat}
    (hb : b < single.infinityBits)
    (hPower : single.significand b = 2 ^ 23)
    (hAbove : single.leastExponent < single.exponent b) :
    single.significand (b - 1) = 2 ^ 24 - 1 ∧
      single.exponent (b - 1) = single.exponent b - 1 := by
  have hUnit : power 2 single.fractionBits = 8388608 := rfl
  have hField := single.exponentField_eq hb.le
  have hBefore :=
    single.exponentField_eq ((Nat.sub_le b 1).trans hb.le)
  unfold Format.exponent at hAbove ⊢
  unfold Format.significand at hPower ⊢
  rw [hField, hUnit] at hAbove hPower ⊢
  rw [hBefore, hUnit]
  split at hPower
  · omega
  · rw [if_neg (by omega)]
    omega

end PostScript.Ieee
