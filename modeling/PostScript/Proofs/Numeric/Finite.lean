import PostScript.Numeric.FixedPoint
import PostScript.Numeric.Real
import PostScript.Proofs.Numeric.Rounding

/-
  This file shows that rounding a number of moderate size gives
  a finite number, and that fixed-point numbers are of moderate
  size.

  Main results:
    * `Ieee.Format.nearest_lt`
    * `FixedPoint.isFinite_toSingle`
-/

namespace PostScript

namespace Ieee

------------------------------------------------------------
-- Rounding
------------------------------------------------------------

/- Rounding goes no further than the next whole number. -/
theorem roundHalfEven_le
    {num den k : Nat}
    (hDen : 0 < den)
    (h : num < k * den) :
    roundHalfEven num den ≤ k := by
  have hQuotient : num / den < k :=
    (Nat.div_lt_iff_lt_mul hDen).mpr h
  unfold roundHalfEven
  dsimp only
  split
  · omega
  · split
    · omega
    · have hOdd := Nat.mod_lt (num / den) (by decide : 0 < 2)
      omega

namespace Format

variable (F : Format)

/-
  In units of its last place a number fits the significand
  with its leading bit.
-/
theorem scaled_lt
    {num den : Nat}
    (hDen : 0 < den)
    {place : Int}
    (hPlace :
      Int.log 2 ((num : ℚ) / den) - F.fractionBits ≤ place) :
    num * power 2 (-place).toNat <
      power 2 (F.fractionBits + 1) *
        (den * power 2 place.toNat) := by
  have hDenCast : (0 : ℚ) < den := by exact_mod_cast hDen
  have hUpper :
      (num : ℚ) / den <
        (2 : ℚ) ^ ((F.fractionBits : Int) + 1 + place) := by
    have hNext :
        (num : ℚ) / den <
          (2 : ℚ) ^ (Int.log 2 ((num : ℚ) / den) + 1) := by
      exact_mod_cast
        Int.lt_zpow_succ_log_self (b := 2) (by norm_num)
          ((num : ℚ) / den)
    refine hNext.trans_le ?_
    exact zpow_le_zpow_right₀ (by norm_num) (by omega)
  have hPower : (0 : ℚ) < (power 2 (-place).toNat : Nat) := by
    exact_mod_cast power_two_pos _
  rw [zpow_add₀ (by norm_num : (2 : ℚ) ≠ 0),
    ← power_div_power place, ← mul_div_assoc,
    div_lt_div_iff₀ hDenCast hPower] at hUpper
  have hField :
      (2 : ℚ) ^ ((F.fractionBits : Int) + 1) =
        (power 2 (F.fractionBits + 1) : Nat) := by
    rw [cast_power]
    exact_mod_cast rfl
  rw [hField] at hUpper
  have hNat :
      num * power 2 (-place).toNat <
        power 2 (F.fractionBits + 1) *
          power 2 place.toNat * den := by
    exact_mod_cast hUpper
  rw [Nat.mul_comm den, ← Nat.mul_assoc]
  exact hNat

/-
  A number well below the greatest exponent is rounded to a
  finite one.
-/
theorem nearest_lt
    {num den : Nat}
    (hDen : 0 < den)
    {k : Int}
    (hValue : (num : ℚ) / den < (2 : ℚ) ^ (k + 1))
    (hLow : F.leastExponent ≤ k - F.fractionBits)
    (hHigh :
      k - F.fractionBits - F.leastExponent + 2 <
        F.topExponent) :
    F.nearest num den < F.infinityBits := by
  have hUnit : 0 < power 2 F.fractionBits := power_two_pos _
  unfold nearest
  split
  next =>
    exact Nat.mul_pos (by omega) hUnit
  next hNum =>
    have hPositive := Nat.pos_of_ne_zero hNum
    rw [log2Quotient_eq hPositive hDen]
    dsimp only
    set x : ℚ := (num : ℚ) / den with hx
    have hDenCast : (0 : ℚ) < den := by exact_mod_cast hDen
    have hxPos : 0 < x := by
      have hNumCast : (0 : ℚ) < num := by
        exact_mod_cast hPositive
      positivity
    have hLog : Int.log 2 x < k + 1 :=
      (Int.lt_zpow_iff_log_lt (b := 2) (by norm_num)
        hxPos).mp (by exact_mod_cast hValue)
    generalize hPlace :
      max F.leastExponent (Int.log 2 x - F.fractionBits) =
        place
    have hPlaceHigh : place ≤ k - F.fractionBits := by omega
    have hScaled :
        num * power 2 (-place).toNat <
          power 2 (F.fractionBits + 1) *
            (den * power 2 place.toNat) := by
      apply F.scaled_lt hDen
      rw [← hPlace]
      exact le_max_right _ _
    have hRound :=
      roundHalfEven_le
        (Nat.mul_pos hDen (power_two_pos place.toNat)) hScaled
    have hSteps :
        (place - F.leastExponent).toNat + 2 < F.topExponent := by
      omega
    refine Nat.lt_of_le_of_lt (Nat.min_le_right _ _) ?_
    calc (place - F.leastExponent).toNat *
            power 2 F.fractionBits +
          roundHalfEven (num * power 2 (-place).toNat)
            (den * power 2 place.toNat)
        ≤ ((place - F.leastExponent).toNat + 2) *
            power 2 F.fractionBits := by
          rw [power_succ] at hRound
          rw [Nat.add_mul]
          omega
      _ < F.topExponent * power 2 F.fractionBits :=
          Nat.mul_lt_mul_of_pos_right hSteps hUnit

end Format

------------------------------------------------------------
-- Single Precision
------------------------------------------------------------

/- Bits below those of infinity are finite with any sign. -/
theorem single_value_withSign
    (negative : Bool)
    {bits : Nat}
    (hBits : bits < single.infinityBits) :
    single.withSign negative bits < 0x100000000 ∧
      (single.value
        (single.withSign negative bits)).isFinite = true := by
  have hTop : single.infinityBits = 255 * 0x800000 := by decide
  have hSign : single.signBit = 256 * 0x800000 := by decide
  refine ⟨?_, ?_⟩
  · unfold Format.withSign
    split <;> omega
  · rw [single.value_withSign negative hBits]
    rfl

end Ieee

------------------------------------------------------------
-- Fixed Point
------------------------------------------------------------

namespace FixedPoint

open Ieee

/- Its magnitude is rounded to a finite number. -/
theorem nearest_lt
    (x : FixedPoint) :
    single.nearest
        (x.mantissa.toInt.natAbs *
          power 2 (-(x.scale : Int)).toNat)
        (power 2 (-(-(x.scale : Int))).toNat) <
      single.infinityBits := by
  have hMantissa : x.mantissa.toInt.natAbs ≤ 2 ^ 31 := by
    have hLow := x.mantissa.le_toInt
    have hHigh := x.mantissa.toInt_lt
    omega
  have hZero : (-(x.scale : Int)).toNat = 0 := by omega
  have hScale : (-(-(x.scale : Int))).toNat = x.scale := by omega
  have hValue :
      ((x.mantissa.toInt.natAbs : Nat) : ℚ) /
          (power 2 x.scale : Nat) <
        (2 : ℚ) ^ ((31 : Int) + 1) := by
    have hPower : (1 : ℚ) ≤ (power 2 x.scale : Nat) := by
      exact_mod_cast power_two_pos x.scale
    have hCast :
        ((x.mantissa.toInt.natAbs : Nat) : ℚ) ≤ 2 ^ 31 := by
      exact_mod_cast hMantissa
    calc ((x.mantissa.toInt.natAbs : Nat) : ℚ) /
          (power 2 x.scale : Nat)
        ≤ (x.mantissa.toInt.natAbs : Nat) :=
          div_le_self (Nat.cast_nonneg _) hPower
      _ ≤ 2 ^ 31 := hCast
      _ < (2 : ℚ) ^ ((31 : Int) + 1) := by norm_num
  rw [hZero, hScale, power_zero, Nat.mul_one]
  exact single.nearest_lt (power_two_pos x.scale) hValue
    (by decide) (by decide)

/- The bits take no more than 32. -/
theorem toNat_toSingle
    (x : FixedPoint) :
    x.toSingle.toNat =
      single.round
        (.finite (x.mantissa.toInt < 0)
          x.mantissa.toInt.natAbs (-(x.scale : Int))) := by
  unfold toSingle
  rw [UInt32.toNat_ofNat']
  exact Nat.mod_eq_of_lt
    (single_value_withSign _ x.nearest_lt).1

/- A fixed-point number is rounded to a finite number. -/
theorem isFinite_toSingle
    (x : FixedPoint) :
    Real.isFinite ⟨x.toSingle, 0⟩ = true := by
  unfold Real.isFinite Real.single
  rw [toNat_toSingle]
  exact (single_value_withSign _ x.nearest_lt).2

end FixedPoint

end PostScript
