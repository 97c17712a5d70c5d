import PostScript.Proofs.Numeric.Exact
import PostScript.Proofs.Numeric.Unique

/-
  This file shows what single precision leaves of a number in
  fixed point: the leading bits of its mantissa, rounded. What
  is left is a mantissa at the same scale, and rounding it once
  more changes nothing.

  Key definitions include:
    * `Ieee.Format.keep`
    * `FixedPoint.kept`

  Main results:
    * `Ieee.Format.dyadic_nearest_eq`
    * `FixedPoint.exact_toSingle`
    * `FixedPoint.toSingle_kept`
    * `FixedPoint.kept_lt_iff`
-/

namespace PostScript

namespace Ieee

------------------------------------------------------------
-- Rounding of Quotients
------------------------------------------------------------

/- A common factor of a quotient does not matter. -/
theorem roundHalfEven_mul_mul
    (num den : Nat)
    {k : Nat}
    (hk : 0 < k) :
    roundHalfEven (num * k) (den * k) =
      roundHalfEven num den := by
  unfold roundHalfEven
  dsimp only
  rw [Nat.mul_div_mul_right _ _ hk, Nat.mul_mod_mul_right,
    ← Nat.mul_assoc]
  simp only [Nat.mul_lt_mul_right hk]

/- Equal quotients are rounded alike. -/
theorem roundHalfEven_congr
    {num den num' den' : Nat}
    (hDen : 0 < den)
    (hDen' : 0 < den')
    (h : (num : ℚ) / den = (num' : ℚ) / den') :
    roundHalfEven num den = roundHalfEven num' den' := by
  have hDenCast : (den : ℚ) ≠ 0 := by
    exact_mod_cast Nat.pos_iff_ne_zero.mp hDen
  have hDenCast' : (den' : ℚ) ≠ 0 := by
    exact_mod_cast Nat.pos_iff_ne_zero.mp hDen'
  rw [div_eq_div_iff hDenCast hDenCast'] at h
  have hCross : num * den' = num' * den := by
    exact_mod_cast h
  calc roundHalfEven num den
      = roundHalfEven (num * den') (den * den') :=
        (roundHalfEven_mul_mul num den hDen').symm
    _ = roundHalfEven (num' * den) (den' * den) := by
        rw [hCross, Nat.mul_comm den]
    _ = roundHalfEven num' den' :=
        roundHalfEven_mul_mul num' den' hDen

/- Whole numbers are rounded to themselves. -/
theorem roundHalfEven_one
    (m : Nat) :
    roundHalfEven m 1 = m := by
  have hRound := Format.roundHalfEven_mul m Nat.one_pos
  rw [Nat.mul_one] at hRound
  exact hRound

/- The logarithm of a quotient by a power of two. -/
theorem log_div_power
    {m : Nat}
    (hm : 0 < m)
    (s : Nat) :
    Int.log 2 ((m : ℚ) / (power 2 s : Nat)) =
      (m.log2 : Int) - s := by
  have hPower : (0 : ℚ) < (2 : ℚ) ^ s := by positivity
  have hTwo : (2 : ℚ) ≠ 0 := by norm_num
  rw [cast_power]
  apply log_eq_of_bounds
  · have hLow : ((2 ^ m.log2 : Nat) : ℚ) ≤ m := by
      exact_mod_cast
        Nat.log2_self_le (Nat.pos_iff_ne_zero.mp hm)
    rw [zpow_sub₀ hTwo, zpow_natCast, zpow_natCast]
    push_cast at hLow
    gcongr
  · have hHigh : (m : ℚ) < ((2 ^ (m.log2 + 1) : Nat) : ℚ) := by
      exact_mod_cast Nat.lt_log2_self
    rw [sub_add_eq_add_sub, zpow_sub₀ hTwo, zpow_natCast]
    push_cast at hHigh
    rw [← zpow_natCast] at hHigh
    push_cast at hHigh
    gcongr

------------------------------------------------------------
-- Leading Bits
------------------------------------------------------------

namespace Format

variable (F : Format)

/-
  A whole number with as many leading bits as a significand
  has. The bits that are left out are rounded to even.
-/
def keep
    (m : Nat) : Nat :=
  let left := m.log2 - F.fractionBits
  roundHalfEven m (power 2 left) * power 2 left

/- No more than the leading bit is needed to be positive. -/
theorem keep_pos
    {m : Nat}
    (hm : 0 < m) :
    0 < F.keep m := by
  have hLeft : m.log2 - F.fractionBits ≤ m.log2 :=
    Nat.sub_le _ _
  have hPower : power 2 (m.log2 - F.fractionBits) ≤ m :=
    Nat.le_trans (Nat.pow_le_pow_right (by decide) hLeft)
      (Nat.log2_self_le (Nat.pos_iff_ne_zero.mp hm))
  refine Nat.mul_pos ?_ (power_two_pos _)
  apply le_roundHalfEven (power_two_pos _)
  rw [Nat.one_mul]
  exact hPower

/- A number that fits a significand is kept as it is. -/
theorem keep_eq_self
    {m : Nat}
    (hm : m.log2 ≤ F.fractionBits) :
    F.keep m = m := by
  unfold keep
  rw [Nat.sub_eq_zero_of_le hm]
  dsimp only
  rw [power_zero, roundHalfEven_one, Nat.mul_one]

/-
  A number at a scale is rounded to its leading bits at this
  scale, if the scale leaves the last of them above the least
  place.
-/
theorem dyadic_nearest_eq
    (hFraction : 0 < F.fractionBits)
    {m s : Nat}
    (hm : 0 < m)
    (hPlace :
      F.leastExponent ≤ (m.log2 : Int) - s - F.fractionBits)
    (hFinite : F.nearest m (power 2 s) < F.infinityBits) :
    dyadic (F.significand (F.nearest m (power 2 s)))
        (F.exponent (F.nearest m (power 2 s))) =
      (F.keep m : ℚ) / (2 : ℚ) ^ s := by
  have hTwo : (2 : ℚ) ≠ 0 := by norm_num
  obtain ⟨p, hp⟩ :
      ∃ p, p = (m.log2 : Int) - s - F.fractionBits := ⟨_, rfl⟩
  have hPlaceEq :
      p = F.place ((m : ℚ) / (power 2 s : Nat)) := by
    unfold place
    rw [log_div_power hm, ← hp]
    exact (max_eq_right (hp ▸ hPlace)).symm
  rw [(F.dyadic_nearest hFraction hm (power_two_pos s)
    hPlaceEq rfl (F.unclamped_le hFinite)).1]
  have hUnits := quotient_place m (power 2 s) p
  have hDen : 0 < power 2 s * power 2 p.toNat :=
    Nat.mul_pos (power_two_pos _) (power_two_pos _)
  rw [cast_power, div_div, ← zpow_natCast, ← zpow_add₀ hTwo]
    at hUnits
  unfold dyadic keep
  dsimp only
  rcases Nat.le_total F.fractionBits m.log2 with hMore | hFew
  · -- The bits below the place are left out.
    have hLeft :
        (s : Int) + p = ((m.log2 - F.fractionBits : Nat) : Int) :=
      by omega
    have hSplit :
        (2 : ℚ) ^ p =
          (2 : ℚ) ^ (m.log2 - F.fractionBits) / (2 : ℚ) ^ s := by
      rw [← zpow_natCast, ← zpow_natCast, ← hLeft,
        ← zpow_sub₀ hTwo, add_sub_cancel_left]
    rw [hLeft, zpow_natCast, ← cast_power] at hUnits
    rw [roundHalfEven_congr hDen (power_two_pos _) hUnits,
      hSplit]
    push_cast
    rw [cast_power, mul_div_assoc]
  · -- There are no bits below the place.
    have hLeft :
        -((s : Int) + p) =
          ((F.fractionBits - m.log2 : Nat) : Int) := by
      omega
    have hWhole :
        (m : ℚ) / (2 : ℚ) ^ ((s : Int) + p) =
          ((m * power 2 (F.fractionBits - m.log2) : Nat) : ℚ) /
            ((1 : Nat) : ℚ) := by
      rw [Nat.cast_one, div_one, Nat.cast_mul, cast_power,
        ← zpow_natCast, ← hLeft, zpow_neg, div_eq_mul_inv]
    have hShift : -((s : Int) + p) + p = -(s : Int) := by omega
    have hKeep := F.keep_eq_self hFew
    unfold keep at hKeep
    dsimp only at hKeep
    rw [hWhole] at hUnits
    rw [roundHalfEven_congr hDen (by decide) hUnits,
      roundHalfEven_one, hKeep, Nat.cast_mul, cast_power,
      ← zpow_natCast, ← hLeft, mul_assoc, ← zpow_add₀ hTwo,
      hShift, zpow_neg, zpow_natCast, div_eq_mul_inv]

end Format

/-
  Of the magnitudes of 32-bit integers single precision keeps
  no more than 2^31, and so much of the 64 greatest alone.
-/
theorem single_keep_le
    {m : Nat}
    (hm : m ≤ 2 ^ 31) :
    single.keep m ≤ 2 ^ 31 ∧
      (single.keep m = 2 ^ 31 ↔ 2 ^ 31 - 64 ≤ m) := by
  have hBits : single.fractionBits = 23 := rfl
  unfold Format.keep
  rw [hBits]
  dsimp only
  by_cases hLess : m < 2 ^ 30
  · -- What is kept goes no further than the next power.
    have hLeft : m.log2 - 23 ≤ 30 := by
      by_cases hZero : m = 0
      · subst hZero
        decide
      · have hLog := (Nat.log2_lt hZero).mpr hLess
        omega
    have hPower :
        power 2 (30 - (m.log2 - 23)) * power 2 (m.log2 - 23) =
          2 ^ 30 := by
      change 2 ^ (30 - (m.log2 - 23)) * 2 ^ (m.log2 - 23) = _
      rw [← Nat.pow_add, Nat.sub_add_cancel hLeft]
    have hRound :=
      roundHalfEven_le (power_two_pos (m.log2 - 23))
        (hPower.symm ▸ hLess)
    have hProduct :=
      Nat.mul_le_mul_right (power 2 (m.log2 - 23)) hRound
    rw [hPower] at hProduct
    omega
  · rcases Nat.eq_or_lt_of_le hm with rfl | hBelow
    · decide
    · have hLog : m.log2 = 30 := by
        rw [Nat.log2_eq_iff (by omega)]
        omega
      have hUnit : power 2 (30 - 23) = 128 := rfl
      rw [hLog, hUnit]
      unfold roundHalfEven
      dsimp only
      split
      · omega
      · split <;> omega

end Ieee

------------------------------------------------------------
-- Fixed Point
------------------------------------------------------------

/- Without an extension a real is its single precision. -/
theorem Real.exact_of_single
    (bits : UInt32) :
    Real.exact ⟨bits, 0⟩ =
      (Ieee.single.value bits.toNat).rational := by
  unfold exact single
  dsimp only
  cases lastPlace bits with
  | none => simp
  | some place => simp

namespace FixedPoint

open Ieee

/- The mantissa that single precision keeps. -/
def kept
    (x : FixedPoint) : Int :=
  Value.signed (x.mantissa.toInt < 0)
    (single.keep x.mantissa.toInt.natAbs)

/- It goes beyond the 32-bit integers for the 64 greatest. -/
theorem kept_lt_iff
    (x : FixedPoint) :
    -(2 ^ 31) ≤ x.kept ∧
      (x.kept < 2 ^ 31 ↔ x.mantissa.toInt < 2 ^ 31 - 64) := by
  have hLow := x.mantissa.le_toInt
  have hHigh := x.mantissa.toInt_lt
  rcases single_keep_le (m := x.mantissa.toInt.natAbs)
      (by omega) with ⟨hLe, hGreatest⟩
  unfold kept Value.signed
  simp only [decide_eq_true_eq]
  split <;> omega

/- It has the sign of the mantissa. -/
theorem kept_neg_iff
    (x : FixedPoint) :
    x.kept < 0 ↔ x.mantissa.toInt < 0 := by
  unfold kept Value.signed
  simp only [decide_eq_true_eq]
  split
  next hNegative =>
    have hKeep :=
      single.keep_pos (m := x.mantissa.toInt.natAbs) (by omega)
    omega
  next hNegative => omega

/- A mantissa of up to 24 bits is kept as it is. -/
theorem kept_eq_self
    {x : FixedPoint}
    (h : x.mantissa.toInt.natAbs < 2 ^ 24) :
    x.kept = x.mantissa.toInt := by
  have hLog : x.mantissa.toInt.natAbs.log2 ≤ 23 := by
    by_cases hZero : x.mantissa.toInt.natAbs = 0
    · rw [hZero]
      decide
    · exact Nat.le_of_lt_succ ((Nat.log2_lt hZero).mpr h)
  unfold kept
  rw [single.keep_eq_self hLog, Value.signed_natAbs]

/- The magnitude is rounded as a quotient, under its sign. -/
theorem toSingle_eq_withSign
    (x : FixedPoint) :
    single.nearest x.mantissa.toInt.natAbs
          (power 2 x.scale) < single.infinityBits ∧
      x.toSingle.toNat =
        single.withSign (x.mantissa.toInt < 0)
          (single.nearest x.mantissa.toInt.natAbs
            (power 2 x.scale)) := by
  have hFinite := x.nearest_lt
  have hZero : (-(x.scale : Int)).toNat = 0 := by omega
  have hCount : (-(-(x.scale : Int))).toNat = x.scale := by
    omega
  rw [hZero, hCount, power_zero, Nat.mul_one] at hFinite
  refine ⟨hFinite, ?_⟩
  rw [x.toNat_toSingle]
  unfold Format.round
  dsimp only
  rw [hZero, hCount, power_zero, Nat.mul_one]

section

variable {x : FixedPoint}
variable (hScale : x.scale ≤ 31)
include hScale

/- At scales up to 31 the places of single precision reach. -/
theorem leastExponent_le :
    single.leastExponent ≤
      (x.mantissa.toInt.natAbs.log2 : Int) - x.scale -
        single.fractionBits := by
  have hLeast : single.leastExponent = -149 := by decide
  have hBits : single.fractionBits = 23 := rfl
  omega

/- In single precision the number has the kept mantissa. -/
theorem exact_toSingle :
    Real.exact ⟨x.toSingle, 0⟩ =
      some ((x.kept : ℚ) / (2 : ℚ) ^ x.scale) := by
  rcases x.toSingle_eq_withSign with ⟨hFinite, hBits⟩
  have hDyadic :
      dyadic
          (single.significand
            (single.nearest x.mantissa.toInt.natAbs
              (power 2 x.scale)))
          (single.exponent
            (single.nearest x.mantissa.toInt.natAbs
              (power 2 x.scale))) =
        (single.keep x.mantissa.toInt.natAbs : ℚ) /
          (2 : ℚ) ^ x.scale := by
    rcases Nat.eq_zero_or_pos x.mantissa.toInt.natAbs with
      hNone | hPos
    · rw [hNone]
      simp [Format.nearest, Format.significand,
        Format.exponentField, Format.keep, roundHalfEven,
        dyadic]
    · exact single.dyadic_nearest_eq (by decide) hPos
        (leastExponent_le hScale) hFinite
  rw [Real.exact_of_single, hBits,
    single.value_withSign _ hFinite, Value.rational_finite]
  unfold dyadic at hDyadic
  unfold kept Value.signed
  congr 1
  split
  · push_cast
    rw [neg_mul, hDyadic, neg_div]
  · rw [Int.cast_natCast, Int.cast_natCast]
    exact hDyadic

/- The kept mantissa is rounded like the mantissa. -/
theorem toSingle_kept
    (hKept : x.kept < 2 ^ 31) :
    toSingle ⟨Int32.ofInt x.kept, x.scale⟩ = x.toSingle := by
  have hInt : (Int32.ofInt x.kept).toInt = x.kept :=
    Int32.toInt_ofInt_of_le x.kept_lt_iff.1 hKept
  have hPower : (0 : ℚ) < (2 : ℚ) ^ x.scale := by positivity
  have hNegative :
      ∀ n : Int, (n : ℚ) / (2 : ℚ) ^ x.scale < 0 ↔ n < 0 := by
    intro n
    rw [div_lt_iff₀ hPower, zero_mul, Int.cast_lt_zero]
  have hRounds := rounds_toSingle ⟨Int32.ofInt x.kept, x.scale⟩
  dsimp only at hRounds
  rw [hInt] at hRounds
  -- What it is rounded from is the number it is rounded to.
  have hExact := exact_toSingle hScale
  rw [Real.exact_of_single] at hExact
  have hSelf :
      single.Rounds ((x.kept : ℚ) / (2 : ℚ) ^ x.scale)
        x.toSingle.toNat := by
    apply Format.rounds_self hExact
    rcases x.rounds_toSingle with ⟨-, -, hSign, -⟩
    rw [hSign, decide_eq_decide, hNegative, hNegative]
    exact x.kept_neg_iff.symm
  exact single_bits_unique hRounds hSelf

end

end FixedPoint

end PostScript
