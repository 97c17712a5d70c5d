import Mathlib
import PostScript.Numeric.Ieee

/-
  This file shows that a number which a floating-point format
  can hold is rounded to itself: the bits that are nearest to
  what a bit pattern stands for are that bit pattern.

  Key definitions include:
    * `Ieee.dyadic`
    * `Ieee.Format.significand`
    * `Ieee.Format.exponent`

  Main results:
    * `Ieee.log2Quotient_eq`
    * `Ieee.Format.nearest_eq`
    * `Ieee.Format.round_eq`
-/

namespace PostScript.Ieee

------------------------------------------------------------
-- Powers of Two
------------------------------------------------------------

/- The exact number `m * 2 ^ e`. -/
def dyadic
    (m : Nat)
    (e : Int) : ℚ :=
  (m : ℚ) * (2 : ℚ) ^ e

/- Powers are the usual ones. -/
theorem cast_power
    (k : Nat) :
    ((power 2 k : Nat) : ℚ) = (2 : ℚ) ^ k := by
  change ((2 ^ k : Nat) : ℚ) = _
  push_cast
  rfl

/- Powers of two are positive. -/
theorem power_two_pos
    (k : Nat) :
    0 < power 2 k :=
  Nat.pow_pos (by decide : 0 < 2)

/-
  A power with a whole exponent is the quotient of two powers,
  one of which is one.
-/
theorem power_div_power
    (k : Int) :
    ((power 2 k.toNat : Nat) : ℚ) /
        ((power 2 (-k).toNat : Nat) : ℚ) =
      (2 : ℚ) ^ k := by
  rw [cast_power, cast_power]
  rcases Int.le_total 0 k with hk | hk
  · have hZero : (-k).toNat = 0 := by omega
    rw [hZero, pow_zero, div_one, ← zpow_natCast,
      Int.toNat_of_nonneg hk]
  · have hZero : k.toNat = 0 := by omega
    rw [hZero, pow_zero, ← zpow_natCast,
      Int.toNat_of_nonneg (by omega), zpow_neg,
      one_div, inv_inv]

/- What a finite value stands for as a quotient. -/
theorem dyadic_eq_quotient
    (m : Nat)
    (e : Int) :
    dyadic m e =
      ((m * power 2 e.toNat : Nat) : ℚ) /
        ((power 2 (-e).toNat : Nat) : ℚ) := by
  unfold dyadic
  rw [← power_div_power e]
  push_cast
  ring

/- Numbers other than zero are positive. -/
theorem dyadic_pos
    {m : Nat}
    (hm : 0 < m)
    (e : Int) :
    0 < dyadic m e := by
  have hCast : (0 : ℚ) < m := by exact_mod_cast hm
  unfold dyadic
  positivity

------------------------------------------------------------
-- Logarithms
------------------------------------------------------------

/-
  Comparing a quotient with a power of two is comparing whole
  numbers.
-/
theorem zpow_le_quotient_iff
    (num : Nat)
    {den : Nat}
    (hDen : 0 < den)
    (k : Int) :
    (2 : ℚ) ^ k ≤ (num : ℚ) / den ↔
      den * power 2 k.toNat ≤ num * power 2 (-k).toNat := by
  have hLeft : (0 : ℚ) < den := by exact_mod_cast hDen
  have hRight : (0 : ℚ) < (power 2 (-k).toNat : Nat) := by
    exact_mod_cast power_two_pos _
  rw [← power_div_power, div_le_div_iff₀ hRight hLeft]
  constructor
  · intro h
    have hNat :
        power 2 k.toNat * den ≤ num * power 2 (-k).toNat := by
      exact_mod_cast h
    rw [Nat.mul_comm]
    exact hNat
  · intro h
    rw [Nat.mul_comm] at h
    exact_mod_cast h

/- A number between two powers has the lesser logarithm. -/
theorem log_eq_of_bounds
    {x : ℚ}
    {k : Int}
    (hLow : (2 : ℚ) ^ k ≤ x)
    (hHigh : x < (2 : ℚ) ^ (k + 1)) :
    Int.log 2 x = k := by
  have hPos : 0 < x :=
    lt_of_lt_of_le (zpow_pos (by norm_num) k) hLow
  have hLower :=
    (Int.zpow_le_iff_le_log (b := 2) (by norm_num) hPos).mp
      (by exact_mod_cast hLow)
  have hUpper :=
    (Int.lt_zpow_iff_log_lt (b := 2) (by norm_num) hPos).mp
      (by exact_mod_cast hHigh)
  omega

/-
  The difference of the logarithms of two numbers is at most
  one too great for their quotient.
-/
theorem quotient_bounds
    {num den : Nat}
    (hNum : 0 < num)
    (hDen : 0 < den) :
    (2 : ℚ) ^ ((num.log2 : Int) - den.log2 - 1) ≤
        (num : ℚ) / den ∧
      (num : ℚ) / den <
        (2 : ℚ) ^ ((num.log2 : Int) - den.log2 + 1) := by
  have hDenCast : (0 : ℚ) < den := by exact_mod_cast hDen
  have hTwo : (2 : ℚ) ≠ 0 := by norm_num
  have hNumLow : (2 : ℚ) ^ num.log2 ≤ num := by
    exact_mod_cast Nat.log2_self_le (Nat.pos_iff_ne_zero.mp hNum)
  have hNumHigh : (num : ℚ) < (2 : ℚ) ^ (num.log2 + 1) := by
    exact_mod_cast Nat.lt_log2_self
  have hDenLow : (2 : ℚ) ^ den.log2 ≤ den := by
    exact_mod_cast Nat.log2_self_le (Nat.pos_iff_ne_zero.mp hDen)
  have hDenHigh : (den : ℚ) < (2 : ℚ) ^ (den.log2 + 1) := by
    exact_mod_cast Nat.lt_log2_self
  constructor
  · rw [le_div_iff₀ hDenCast]
    calc (2 : ℚ) ^ ((num.log2 : Int) - den.log2 - 1) * den
        ≤ (2 : ℚ) ^ ((num.log2 : Int) - den.log2 - 1) *
            (2 : ℚ) ^ (den.log2 + 1) :=
          mul_le_mul_of_nonneg_left hDenHigh.le
            (zpow_nonneg (by norm_num) _)
      _ = (2 : ℚ) ^ num.log2 := by
          rw [← zpow_natCast, ← zpow_natCast,
            ← zpow_add₀ hTwo]
          congr 1
          push_cast
          ring
      _ ≤ num := hNumLow
  · rw [div_lt_iff₀ hDenCast]
    calc (num : ℚ)
        < (2 : ℚ) ^ (num.log2 + 1) := hNumHigh
      _ = (2 : ℚ) ^ ((num.log2 : Int) - den.log2 + 1) *
            (2 : ℚ) ^ den.log2 := by
          rw [← zpow_natCast, ← zpow_natCast,
            ← zpow_add₀ hTwo]
          congr 1
          push_cast
          ring
      _ ≤ (2 : ℚ) ^ ((num.log2 : Int) - den.log2 + 1) * den :=
          mul_le_mul_of_nonneg_left hDenLow
            (zpow_nonneg (by norm_num) _)

/- The logarithm of a quotient is exact. -/
theorem log2Quotient_eq
    {num den : Nat}
    (hNum : 0 < num)
    (hDen : 0 < den) :
    log2Quotient num den = Int.log 2 ((num : ℚ) / den) := by
  rcases quotient_bounds hNum hDen with ⟨hLow, hHigh⟩
  have hCompare :=
    zpow_le_quotient_iff num hDen
      ((num.log2 : Int) - den.log2)
  unfold log2Quotient
  dsimp only
  split
  next hFits =>
    exact (log_eq_of_bounds (hCompare.mpr hFits) hHigh).symm
  next hFits =>
    refine (log_eq_of_bounds hLow ?_).symm
    rw [sub_add_cancel]
    exact lt_of_not_ge (fun h => hFits (hCompare.mp h))

------------------------------------------------------------
-- Bit Patterns
------------------------------------------------------------

namespace Format

variable (F : Format)

/- The significand of a bit pattern, with its leading bit. -/
def significand
    (bits : Nat) : Nat :=
  if F.exponentField bits = 0 then
    bits % power 2 F.fractionBits
  else
    power 2 F.fractionBits + bits % power 2 F.fractionBits

/- The exponent of the last place of a bit pattern. -/
def exponent
    (bits : Nat) : Int :=
  F.leastExponent + (F.exponentField bits - 1 : Nat)

/- What a finite bit pattern stands for, in these words. -/
theorem value_eq
    (bits : Nat)
    (hFinite : F.exponentField bits ≠ F.topExponent) :
    F.value bits =
      .finite (bits / F.signBit % 2 == 1)
        (F.significand bits) (F.exponent bits) := by
  unfold value significand exponent
  rw [if_neg hFinite]
  split
  next hZero =>
    simp only [hZero, Nat.zero_sub, Int.natCast_zero,
      Int.add_zero]
  next hField => rfl

/-
  The bits of a magnitude are its exponent and significand
  together. The leading bit of the significand counts as one
  in the exponent.
-/
theorem bits_eq
    (bits : Nat)
    (hBits : bits < F.infinityBits) :
    (F.exponent bits - F.leastExponent).toNat *
        power 2 F.fractionBits + F.significand bits =
      bits := by
  have hField :
      F.exponentField bits = bits / power 2 F.fractionBits := by
    apply Nat.mod_eq_of_lt
    rw [Nat.div_lt_iff_lt_mul (power_two_pos _)]
    refine Nat.lt_of_lt_of_le hBits ?_
    exact Nat.mul_le_mul_right _ (Nat.sub_le _ _)
  have hSplit := Nat.div_add_mod bits (power 2 F.fractionBits)
  unfold exponent significand
  rw [hField]
  split
  next hZero =>
    rw [hZero, Nat.mul_zero] at hSplit
    rw [hZero]
    simpa using hSplit
  next hPos =>
    have hShift :
        (F.leastExponent +
          ((bits / power 2 F.fractionBits - 1 : Nat) : Int) -
            F.leastExponent).toNat + 1 =
          bits / power 2 F.fractionBits := by
      omega
    rw [← Nat.add_assoc, ← Nat.succ_mul, Nat.succ_eq_add_one,
      hShift, Nat.mul_comm]
    exact hSplit

/- Significands fit their field and its leading bit. -/
theorem significand_lt
    (bits : Nat) :
    F.significand bits < power 2 (F.fractionBits + 1) := by
  have hFraction :=
    Nat.mod_lt bits (power_two_pos F.fractionBits)
  unfold significand
  rw [power_succ]
  split <;> omega

/-
  The place of the last bit that rounding chooses for a number
  is the one that its bit pattern tells.
-/
theorem place_eq
    {bits : Nat}
    {x : ℚ}
    (hPos : F.significand bits ≠ 0)
    (hx : x = dyadic (F.significand bits) (F.exponent bits)) :
    max F.leastExponent (Int.log 2 x - F.fractionBits) =
      F.exponent bits := by
  have hTwo : (2 : ℚ) ≠ 0 := by norm_num
  have hUpper :
      x < (2 : ℚ) ^
        (F.exponent bits + F.fractionBits + 1) := by
    have hNat :
        (F.significand bits : ℚ) <
          (2 : ℚ) ^ (F.fractionBits + 1) := by
      rw [← cast_power]
      exact_mod_cast F.significand_lt bits
    rw [hx, add_assoc, zpow_add₀ hTwo, mul_comm]
    refine mul_lt_mul_of_pos_right ?_ (zpow_pos (by norm_num) _)
    exact_mod_cast hNat
  by_cases hZero : F.exponentField bits = 0
  · have hLeast : F.exponent bits = F.leastExponent := by
      simp [exponent, hZero]
    have hSmall :
        x < (2 : ℚ) ^ (F.exponent bits + F.fractionBits) := by
      have hNat :
          (F.significand bits : ℚ) <
            (2 : ℚ) ^ F.fractionBits := by
        rw [← cast_power]
        unfold significand
        rw [if_pos hZero]
        exact_mod_cast Nat.mod_lt bits (power_two_pos _)
      rw [hx, zpow_add₀ hTwo, mul_comm]
      refine mul_lt_mul_of_pos_right ?_
        (zpow_pos (by norm_num) _)
      exact_mod_cast hNat
    have hLog :=
      (Int.lt_zpow_iff_log_lt (b := 2) (by norm_num)
        (hx ▸ dyadic_pos (Nat.pos_of_ne_zero hPos) _)).mp
          (by exact_mod_cast hSmall)
    omega
  · have hLower :
        (2 : ℚ) ^ (F.exponent bits + F.fractionBits) ≤ x := by
      have hNat :
          (2 : ℚ) ^ F.fractionBits ≤ F.significand bits := by
        rw [← cast_power]
        unfold significand
        rw [if_neg hZero]
        exact_mod_cast Nat.le_add_right _ _
      rw [hx, zpow_add₀ hTwo, mul_comm]
      refine mul_le_mul_of_nonneg_right ?_
        (zpow_nonneg (by norm_num) _)
      exact_mod_cast hNat
    have hLog := log_eq_of_bounds hLower hUpper
    have hLeast : F.leastExponent ≤ F.exponent bits := by
      unfold exponent
      omega
    omega

/- Rounding a whole number leaves it as it is. -/
theorem roundHalfEven_mul
    (m : Nat)
    {den : Nat}
    (hDen : 0 < den) :
    roundHalfEven (m * den) den = m := by
  unfold roundHalfEven
  simp only [Nat.mul_div_cancel m hDen, Nat.mul_mod_left,
    Nat.mul_zero, if_pos hDen]

/-
  A fraction that equals what a bit pattern stands for is
  rounded to that bit pattern.
-/
theorem nearest_eq
    {bits num den : Nat}
    (hBits : bits < F.infinityBits)
    (hPos : F.significand bits ≠ 0)
    (hDen : 0 < den)
    (hValue :
      (num : ℚ) / den =
        dyadic (F.significand bits) (F.exponent bits)) :
    F.nearest num den = bits := by
  have hDenCast : (den : ℚ) ≠ 0 := by
    exact_mod_cast Nat.pos_iff_ne_zero.mp hDen
  have hPositive : (0 : ℚ) < (num : ℚ) / den :=
    hValue ▸ dyadic_pos (Nat.pos_of_ne_zero hPos) _
  have hNum : 0 < num := by
    rcases Nat.eq_zero_or_pos num with hZero | hNum
    · rw [hZero, Nat.cast_zero, zero_div] at hPositive
      exact absurd hPositive (lt_irrefl 0)
    · exact hNum
  have hPlace := F.place_eq hPos hValue
  -- In units of its last place the fraction is a whole number.
  have hWhole :
      num * power 2 (-F.exponent bits).toNat =
        F.significand bits *
          (den * power 2 (F.exponent bits).toNat) := by
    have hPower :
        ((power 2 (-F.exponent bits).toNat : Nat) : ℚ) ≠ 0 := by
      exact_mod_cast Nat.pos_iff_ne_zero.mp (power_two_pos _)
    rw [dyadic_eq_quotient,
      div_eq_div_iff hDenCast hPower] at hValue
    have hNat :
        num * power 2 (-F.exponent bits).toNat =
          F.significand bits *
            power 2 (F.exponent bits).toNat * den := by
      exact_mod_cast hValue
    rw [hNat, Nat.mul_assoc,
      Nat.mul_comm (power 2 (F.exponent bits).toNat)]
  unfold nearest
  rw [if_neg (Nat.pos_iff_ne_zero.mp hNum),
    log2Quotient_eq hNum hDen, hPlace]
  dsimp only
  rw [hWhole,
    roundHalfEven_mul _
      (Nat.mul_pos hDen (power_two_pos _)),
    F.bits_eq bits hBits]
  exact Nat.min_eq_right hBits.le

------------------------------------------------------------
-- Signs
------------------------------------------------------------

/- A bit pattern is its sign in front of its magnitude. -/
theorem withSign_magnitude
    {bits : Nat}
    (hBits : bits < 2 * F.signBit) :
    F.withSign (bits / F.signBit % 2 == 1)
      (bits % F.signBit) = bits := by
  have hSplit := Nat.div_add_mod bits F.signBit
  have hPos : 0 < F.signBit := power_two_pos _
  have hSign : bits / F.signBit < 2 := by
    rw [Nat.div_lt_iff_lt_mul hPos]
    exact hBits
  unfold withSign
  generalize bits / F.signBit = q at *
  interval_cases q
  · simpa using hSplit
  · simpa using hSplit

/- The sign does not change the exponent field. -/
theorem exponentField_magnitude
    (bits : Nat) :
    F.exponentField (bits % F.signBit) =
      F.exponentField bits := by
  have hSign :
      F.signBit =
        power 2 F.fractionBits * power 2 F.exponentBits := by
    unfold signBit power
    rw [Nat.add_comm]
    exact Nat.pow_add 2 _ _
  unfold exponentField
  rw [hSign, Nat.mod_mul_right_div_self, Nat.mod_mod]

/- Nor does it change the fraction. -/
theorem significand_magnitude
    (bits : Nat) :
    F.significand (bits % F.signBit) =
      F.significand bits := by
  have hDvd : power 2 F.fractionBits ∣ F.signBit :=
    Nat.pow_dvd_pow 2 (Nat.le_add_left _ _)
  unfold significand
  rw [F.exponentField_magnitude, Nat.mod_mod_of_dvd bits hDvd]

/- Magnitudes of finite numbers are below infinity. -/
theorem magnitude_lt
    (bits : Nat)
    (hFinite : F.exponentField bits ≠ F.topExponent) :
    bits % F.signBit < F.infinityBits := by
  have hField := F.exponentField_magnitude bits
  have hSign :
      F.signBit =
        power 2 F.exponentBits * power 2 F.fractionBits :=
    Nat.pow_add 2 _ _
  have hLess :
      bits % F.signBit / power 2 F.fractionBits <
        power 2 F.exponentBits := by
    rw [Nat.div_lt_iff_lt_mul (power_two_pos _), ← hSign]
    exact Nat.mod_lt _ (power_two_pos _)
  have hQuotient :
      bits % F.signBit / power 2 F.fractionBits =
        F.exponentField bits := by
    rw [← hField]
    exact (Nat.mod_eq_of_lt hLess).symm
  unfold infinityBits
  rw [← Nat.div_lt_iff_lt_mul (power_two_pos _), hQuotient]
  rw [hQuotient] at hLess
  unfold topExponent at hFinite ⊢
  omega

/- Magnitudes up to that of infinity leave the sign free. -/
theorem infinityBits_lt :
    F.infinityBits < F.signBit := by
  have hSign :
      F.signBit =
        power 2 F.exponentBits * power 2 F.fractionBits :=
    Nat.pow_add 2 _ _
  have hTop : F.topExponent < power 2 F.exponentBits :=
    Nat.sub_lt (power_two_pos _) Nat.one_pos
  rw [hSign]
  exact Nat.mul_lt_mul_of_pos_right hTop (power_two_pos _)

/- Up to infinity the exponent field stands at the top. -/
theorem exponentField_eq
    {bits : Nat}
    (hBelow : bits ≤ F.infinityBits) :
    F.exponentField bits = bits / power 2 F.fractionBits := by
  have hSign :
      F.signBit =
        power 2 F.exponentBits * power 2 F.fractionBits :=
    Nat.pow_add 2 _ _
  apply Nat.mod_eq_of_lt
  rw [Nat.div_lt_iff_lt_mul (power_two_pos _), ← hSign]
  exact Nat.lt_of_le_of_lt hBelow F.infinityBits_lt

/- A sign in front of a magnitude leaves the magnitude. -/
theorem withSign_mod
    (negative : Bool)
    {bits : Nat}
    (hBits : bits < F.signBit) :
    F.withSign negative bits % F.signBit = bits := by
  unfold withSign
  split
  · rw [Nat.add_mod_left, Nat.mod_eq_of_lt hBits]
  · exact Nat.mod_eq_of_lt hBits

/- It is the sign of the bits. -/
theorem sign_withSign
    (negative : Bool)
    {bits : Nat}
    (hBits : bits < F.signBit) :
    (F.withSign negative bits / F.signBit % 2 == 1) =
      negative := by
  have hPos : 0 < F.signBit := power_two_pos _
  cases negative with
  | false => simp [withSign, Nat.div_eq_of_lt hBits]
  | true =>
      simp [withSign, Nat.add_div_left _ hPos,
        Nat.div_eq_of_lt hBits]

/- A finite magnitude stands for its number with that sign. -/
theorem value_withSign
    (negative : Bool)
    {bits : Nat}
    (hBits : bits < F.infinityBits) :
    F.value (F.withSign negative bits) =
      .finite negative (F.significand bits)
        (F.exponent bits) := by
  have hLess : bits < F.signBit :=
    hBits.trans F.infinityBits_lt
  have hMagnitude := F.withSign_mod negative hLess
  have hField :
      F.exponentField (F.withSign negative bits) =
        F.exponentField bits := by
    rw [← F.exponentField_magnitude, hMagnitude]
  have hTop : F.exponentField bits ≠ F.topExponent := by
    have hQuotient :
        bits / power 2 F.fractionBits < F.topExponent :=
      (Nat.div_lt_iff_lt_mul (power_two_pos _)).mpr hBits
    exact ((Nat.mod_le _ _).trans_lt hQuotient).ne
  rw [F.value_eq _ (hField ▸ hTop), F.sign_withSign _ hLess,
    ← F.significand_magnitude (F.withSign negative bits),
    hMagnitude]
  unfold exponent
  rw [hField]

/-
  A value that equals what a finite bit pattern other than
  zero stands for is rounded to that bit pattern.
-/
theorem round_eq
    {bits m : Nat}
    {e : Int}
    (hBits : bits < 2 * F.signBit)
    (hFinite : F.exponentField bits ≠ F.topExponent)
    (hPos : F.significand bits ≠ 0)
    (hValue :
      dyadic m e =
        dyadic (F.significand bits) (F.exponent bits)) :
    F.round (.finite (bits / F.signBit % 2 == 1) m e) =
      bits := by
  have hExponent :
      F.exponent (bits % F.signBit) = F.exponent bits := by
    unfold exponent
    rw [F.exponentField_magnitude]
  have hNearest :
      F.nearest (m * power 2 e.toNat) (power 2 (-e).toNat) =
        bits % F.signBit := by
    apply F.nearest_eq (F.magnitude_lt bits hFinite)
    · rw [F.significand_magnitude]
      exact hPos
    · exact power_two_pos _
    · rw [← dyadic_eq_quotient, hValue,
        F.significand_magnitude, hExponent]
  unfold round
  dsimp only
  rw [hNearest]
  exact F.withSign_magnitude hBits

end Format

end PostScript.Ieee
