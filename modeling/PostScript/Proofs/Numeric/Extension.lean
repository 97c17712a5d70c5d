import PostScript.Numeric.Real
import PostScript.Proofs.Numeric.Arithmetic
import PostScript.Proofs.Numeric.LeastScale
import PostScript.Proofs.Numeric.Overflow

/-
  This file shows that adding an extension to a number in
  single precision is exact in double precision, and that the
  correction from the number to such a sum is the extension.

  Main results:
    * `Real.rational_unit`
    * `Real.rational_toDouble`
    * `Real.value_toDouble`
    * `Real.toDouble_eq_of_exact`
    * `Real.correction_eq`
    * `Real.ofDouble_eq`
-/

namespace PostScript

open Ieee

------------------------------------------------------------
-- Double Precision
------------------------------------------------------------

namespace Ieee

/- Rounding to double precision takes no more than 64 bits. -/
theorem toNat_double_round
    (v : Value) :
    (UInt64.ofNat (double.round v)).toNat = double.round v := by
  rw [UInt64.toNat_ofNat']
  apply Nat.mod_eq_of_lt
  by_cases hValue : v = .nan
  · rw [hValue]
    decide
  · rcases double.round_of_ne_nan hValue with
      ⟨negative, bits, hBits, hRound⟩
    rw [hRound]
    exact (double.withSign_lt negative hBits).trans_le
      (by decide)

/- Nor does a sum. -/
theorem toNat_double_add
    (a b : Nat) :
    (UInt64.ofNat (double.add a b)).toNat = double.add a b :=
  toNat_double_round _

/- The sign of a number other than zero is its sign bit. -/
theorem Format.sign_of_rational
    {F : Format}
    {bits : Nat}
    {x : ℚ}
    (hx : (F.value bits).rational = some x)
    (hSome : x ≠ 0) :
    (bits / F.signBit % 2 == 1) = decide (x < 0) := by
  have hValue := (F.rational_eq_some hx).2
  have hMagnitude :
      0 ≤ dyadic (F.significand bits) (F.exponent bits) := by
    unfold dyadic
    positivity
  rw [Value.signed_mul] at hValue
  cases hSign : bits / F.signBit % 2 == 1 with
  | false =>
      have hNonneg : 0 ≤ x := by
        rw [hValue, hSign]
        simpa [Value.signed] using hMagnitude
      rw [decide_eq_false (not_lt.mpr hNonneg)]
  | true =>
      have hNonpos : x ≤ 0 := by
        rw [hValue, hSign]
        simpa [Value.signed] using hMagnitude
      rw [decide_eq_true (lt_of_le_of_ne hNonpos hSome)]

/- Numbers other than zero have one bit pattern each. -/
theorem double_bits_eq
    {a b : UInt64}
    {x : ℚ}
    (ha : (double.value a.toNat).rational = some x)
    (hb : (double.value b.toNat).rational = some x)
    (hSome : x ≠ 0) :
    a = b := by
  have hWord : 2 * double.signBit = 2 ^ 64 := by decide
  apply UInt64.toNat_inj.mp
  apply Format.Rounds.unique (F := double) (by decide)
    (hWord ▸ a.toNat_lt) (hWord ▸ b.toNat_lt)
  · exact Format.rounds_self ha
      (Format.sign_of_rational ha hSome)
  · exact Format.rounds_self hb
      (Format.sign_of_rational hb hSome)

/- Single precision takes fewer bits than double precision. -/
theorem fitsTo_single
    {bits : UInt32}
    {x : ℚ}
    (hx : (single.value bits.toNat).rational = some x) :
    FitsTo 104 x := by
  rcases Value.exists_finite hx with
    ⟨negative, m, e, hValue, rfl⟩
  rcases FixedPoint.single_finite hValue with
    ⟨hm, hLow, hHigh⟩
  refine ⟨Value.signed negative m, e, rfl, ?_,
    by omega, by omega⟩
  have hAbs : (Value.signed negative m).natAbs = m := by
    cases negative <;> simp [Value.signed]
  rw [hAbs]
  exact hm.trans (by decide)

/- So it is widened without loss. -/
theorem fits_single
    {bits : UInt32}
    {x : ℚ}
    (hx : (single.value bits.toNat).rational = some x) :
    Fits x :=
  (fitsTo_single hx).fits (by decide)

/- What is not finite stays what it is. -/
theorem value_double_round
    {v : Value}
    (hv : v.isFinite = false) :
    double.value (double.round v) = v := by
  cases v with
  | nan => decide
  | infinite negative => exact double.value_infinity negative
  | finite => contradiction

end Ieee

------------------------------------------------------------
-- Last Places
------------------------------------------------------------

namespace Real

/- What is known of the last place of a normal number. -/
theorem lastPlace_bounds
    {bits : UInt32}
    {place : Int}
    (h : lastPlace bits = some place) :
    -149 ≤ place ∧ place ≤ 104 := by
  rcases lastPlace_eq_some h with ⟨hTop, hPlace⟩
  have hValue := Ieee.single.value_eq bits.toNat hTop
  rw [hPlace]
  exact (FixedPoint.single_finite hValue).2

/- A number with a last place is finite. -/
theorem rational_of_lastPlace
    {bits : UInt32}
    {place : Int}
    (h : lastPlace bits = some place) :
    ∃ v, (Ieee.single.value bits.toNat).rational = some v := by
  rw [Ieee.single.value_eq _ (lastPlace_eq_some h).1]
  exact ⟨_, rfl⟩

/- The unit in the last place is this power of two. -/
theorem rational_unit
    {bits : UInt32}
    {place : Int}
    (h : lastPlace bits = some place) :
    ∃ u, unit bits = some u ∧
      (double.value u).rational = some ((2 : ℚ) ^ place) := by
  rcases lastPlace_bounds h with ⟨hLow, hHigh⟩
  have hBias : double.bias = 1023 := by decide
  have hTop : double.topExponent = 2047 := by decide
  have hLeast : double.leastExponent = -1074 := by decide
  have hFraction : double.fractionBits = 52 := rfl
  obtain ⟨field, hField⟩ :
      ∃ field, field = (place + double.bias).toNat :=
    ⟨_, rfl⟩
  have hMagnitude :
      double.magnitude
          (field * power 2 double.fractionBits) = _ :=
    double.magnitude_power (by omega) (by omega)
  have hBelow :
      field * power 2 double.fractionBits <
        double.infinityBits :=
    Nat.mul_lt_mul_of_pos_right (by omega) (power_two_pos _)
  refine ⟨field * power 2 double.fractionBits, ?_, ?_⟩
  · rw [unit, h, hField]
    rfl
  · have hValue :
        double.value (field * power 2 double.fractionBits) =
          .finite false _ _ :=
      double.value_withSign false hBelow
    have hPlace :
        (double.fractionBits : Int) +
            (double.leastExponent + (field - 1 : Nat)) =
          place := by
      omega
    rw [hPlace] at hMagnitude
    rw [hValue, Value.rational_finite, ← hMagnitude]
    rfl

------------------------------------------------------------
-- Extensions
------------------------------------------------------------

/- The exact value of a normal real counts its extension. -/
theorem exact_of_lastPlace
    {r : Real}
    {place : Int}
    {v : ℚ}
    (hPlace : lastPlace r.bits = some place)
    (hv : r.single.rational = some v) :
    r.exact =
      some (v + r.extension.toInt * (2 : ℚ) ^ (place - 16)) := by
  rw [exact, hv, Option.map_some, hPlace]

/- Extensions are whole numbers of up to 16 bits. -/
theorem natAbs_extension_lt
    (n : Int16) :
    n.toInt.natAbs < power 2 53 := by
  have hBits : power 2 53 = 9007199254740992 := rfl
  have hLeast := n.le_toInt
  have hMost := n.toInt_lt
  omega

/- A quotient by 2^16 has its place 16 bits below. -/
theorem mul_power_div
    (n place : Int) :
    (n : ℚ) * (2 : ℚ) ^ place / ((0x10000 : Int) : ℚ) =
      n * (2 : ℚ) ^ (place - 16) := by
  rw [zpow_sub₀ (by norm_num), mul_div_assoc]
  norm_num

/- A normal number and its extension have 41 bits together. -/
theorem fitsTo_extended
    {bits : UInt32}
    {place : Int}
    {v : ℚ}
    (hPlace : lastPlace bits = some place)
    (hv : (Ieee.single.value bits.toNat).rational = some v)
    (n : Int16) :
    FitsTo 104 (v + n.toInt * (2 : ℚ) ^ (place - 16)) := by
  rcases lastPlace_bounds hPlace with ⟨hLow, hHigh⟩
  rcases lastPlace_eq_some hPlace with ⟨hTop, hExponent⟩
  have hMost : Ieee.single.significand bits.toNat < 2 ^ 24 :=
    Ieee.single.significand_lt bits.toNat
  have hBits : power 2 53 = 9007199254740992 := rfl
  have hLeastExtension := n.le_toInt
  have hMostExtension := n.toInt_lt
  rw [Ieee.single.value_eq _ hTop, Value.rational_finite,
    ← hExponent, Option.some.injEq] at hv
  generalize Ieee.single.significand bits.toNat = m at *
  generalize (bits.toNat / Ieee.single.signBit % 2 == 1) =
    negative at *
  refine ⟨Value.signed negative m * 2 ^ 16 + n.toInt,
    place - 16, ?_, ?_, by omega, by omega⟩
  · rw [← hv, zpow_sub₀ (by norm_num)]
    push_cast
    field_simp
  · cases negative <;> simp only [Value.signed] <;> omega

/- Without a last place nothing is added. -/
theorem toDouble_of_lastPlace
    {r : Real}
    (hPlace : lastPlace r.bits = none) :
    r.toDouble.toNat = double.round r.single := by
  have hUnit : unit r.bits = none := by
    rw [unit, hPlace]
    rfl
  rw [toDouble, hUnit]
  exact toNat_double_round r.single

/- Nor does the extension count in the exact value. -/
theorem exact_of_no_lastPlace
    {r : Real}
    (hPlace : lastPlace r.bits = none) :
    r.exact = r.single.rational := by
  rw [exact, hPlace]
  exact Option.map_id'

/-
  In double precision a real has its exact value. Infinities
  and NaNs have none.
-/
theorem rational_toDouble
    (r : Real) :
    (double.value r.toDouble.toNat).rational = r.exact := by
  cases hPlace : lastPlace r.bits with
  | none =>
      rw [toDouble_of_lastPlace hPlace,
        exact_of_no_lastPlace hPlace]
      cases hFinite : r.single.isFinite with
      | false => rw [value_double_round hFinite]
      | true =>
          cases hSingle : r.single with
          | nan | infinite =>
              rw [hSingle] at hFinite
              contradiction
          | finite negative m e =>
              have hv : r.single.rational = some _ :=
                congrArg Value.rational hSingle
              exact rational_round rfl (fits_single hv)
  | some place =>
      rcases lastPlace_bounds hPlace with ⟨hLow, hHigh⟩
      rcases rational_unit hPlace with ⟨u, hUnit, hPower⟩
      rcases rational_of_lastPlace hPlace with ⟨v, hv⟩
      have hWiden :
          (double.value (double.round r.single)).rational =
            some v :=
        rational_round hv (fits_single hv)
      rw [toDouble, hUnit, exact_of_lastPlace hPlace hv]
      dsimp only
      by_cases hNone : r.extension = 0
      · rw [if_pos hNone, hNone, toNat_double_round, hWiden]
        simp
      · have hBits := natAbs_extension_lt r.extension
        have hProduct :=
          rational_double_mul (rational_double_ofInt hBits)
            hPower (fits_whole hBits (by omega) (by omega))
        have hQuotient :=
          rational_double_div hProduct
            (rational_double_ofInt (n := 0x10000) (by decide))
            (by norm_num)
        rw [mul_power_div] at hQuotient
        have hPart :=
          hQuotient (fits_whole hBits (by omega) (by omega))
        rw [if_neg hNone, toNat_double_add]
        exact rational_double_add hWiden hPart
          ((fitsTo_extended hPlace hv r.extension).fits
            (by decide))

/- The exact value of a real is far from the upper end. -/
theorem fitsTo_exact
    {r : Real}
    {x : ℚ}
    (hx : r.exact = some x) :
    FitsTo 104 x := by
  cases hPlace : lastPlace r.bits with
  | none =>
      rw [exact_of_no_lastPlace hPlace] at hx
      exact fitsTo_single hx
  | some place =>
      rcases rational_of_lastPlace hPlace with ⟨v, hv⟩
      rw [exact_of_lastPlace hPlace hv] at hx
      cases hx
      exact fitsTo_extended hPlace hv r.extension

/- An infinity or a NaN is the same in double precision. -/
theorem value_toDouble
    {r : Real}
    (hExact : r.exact = none) :
    double.value r.toDouble.toNat = r.value := by
  cases hPlace : lastPlace r.bits with
  | some place =>
      rcases rational_of_lastPlace hPlace with ⟨v, hv⟩
      rw [exact_of_lastPlace hPlace hv] at hExact
      contradiction
  | none =>
      have hValue : r.value = r.single := by
        unfold value
        rw [hPlace]
        cases r.single <;> rfl
      have hFinite : r.single.isFinite = false := by
        rw [exact_of_no_lastPlace hPlace] at hExact
        cases hSingle : r.single with
        | nan | infinite => rfl
        | finite negative m e =>
            rw [hSingle] at hExact
            contradiction
      rw [toDouble_of_lastPlace hPlace, hValue,
        value_double_round hFinite]

/-
  Reals with the same exact value other than zero are the same
  number in double precision.
-/
theorem toDouble_eq_of_exact
    {r r' : Real}
    {x : ℚ}
    (hx : r.exact = some x)
    (hx' : r'.exact = some x)
    (hSome : x ≠ 0) :
    r.toDouble = r'.toDouble := by
  rw [← rational_toDouble] at hx hx'
  exact double_bits_eq hx hx' hSome

------------------------------------------------------------
-- Corrections
------------------------------------------------------------

/-
  The correction from a normal number to the exact value of a
  real is the extension of the real.
-/
theorem correction_eq
    {d : UInt64}
    {r : Real}
    {place : Int}
    (hPlace : lastPlace r.bits = some place)
    (hd : (double.value d.toNat).rational = r.exact) :
    correction d r.bits = r.extension := by
  rcases lastPlace_bounds hPlace with ⟨hLow, hHigh⟩
  rcases rational_unit hPlace with ⟨u, hUnit, hPower⟩
  rcases rational_of_lastPlace hPlace with ⟨v, hv⟩
  rw [exact_of_lastPlace hPlace hv] at hd
  have hLeast := r.extension.le_toInt
  have hMost := r.extension.toInt_lt
  have hBits := natAbs_extension_lt r.extension
  have hOriginal : Int16.ofInt r.extension.toInt = r.extension :=
    Int16.ofInt_toInt _
  generalize r.extension.toInt = c at *
  -- Each of the three results is this number at some place.
  have hTwo : (2 : ℚ) ≠ 0 := by norm_num
  have hDifference :
      v + c * (2 : ℚ) ^ (place - 16) - v =
        c * (2 : ℚ) ^ (place - 16) :=
    add_sub_cancel_left _ _
  have hQuotient :
      c * (2 : ℚ) ^ (place - 16) / (2 : ℚ) ^ place =
        c * (2 : ℚ) ^ (-16 : Int) := by
    rw [mul_div_assoc, ← zpow_sub₀ hTwo]
    congr 2
    omega
  have hScaled :
      c * (2 : ℚ) ^ (-16 : Int) * ((0x10000 : Int) : ℚ) = c := by
    rw [mul_assoc]
    norm_num
  have hSub :=
    rational_double_sub hd (rational_round hv (fits_single hv))
  rw [hDifference] at hSub
  have hDiv :=
    rational_double_div
      (hSub (fits_whole hBits (by omega) (by omega)))
      hPower (zpow_ne_zero _ hTwo)
  rw [hQuotient] at hDiv
  have hMul :=
    rational_double_mul
      (hDiv (fits_whole hBits (by decide) (by decide)))
      (rational_double_ofInt (n := 0x10000) (by decide))
  rw [hScaled] at hMul
  have hWhole := Value.wholeAway_eq (hMul (fits_int hBits))
  rw [roundAway_intCast] at hWhole
  rw [correction, hUnit]
  dsimp only
  rw [hWhole]
  dsimp only
  rw [if_pos ⟨by omega, by omega⟩, hOriginal]

/-
  A number in double precision that is rounded to the number of
  a normal real, and is the exact value of the real, becomes
  this real.
-/
theorem ofDouble_eq
    {d : UInt64}
    {r : Real}
    {place : Int}
    (hPlace : lastPlace r.bits = some place)
    (hRound :
      Ieee.single.round (double.value d.toNat) = r.bits.toNat)
    (hd : (double.value d.toNat).rational = r.exact) :
    ofDouble d = r := by
  unfold ofDouble
  rw [hRound, UInt32.ofNat_toNat]
  dsimp only
  rw [correction_eq hPlace hd]

end Real

end PostScript
