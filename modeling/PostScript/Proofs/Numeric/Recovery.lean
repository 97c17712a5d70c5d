import PostScript.Proofs.Numeric.Extension
import PostScript.Proofs.Numeric.Neighbours

/-
  This file shows that a normal real is recovered from its value
  in double precision. Where the extension points inward from a
  power of two, another real with the same value is: the number
  before, with an extension that makes up for the difference.

  Key definitions include:
    * `Real.HasParts`
    * `Real.Inward`

  Main results:
    * `Real.HasParts.ofDouble_same`
    * `Real.HasParts.ofDouble_before`
    * `Real.ofDouble_eq_self_iff`
    * `Real.exact_ofDouble_toDouble`
    * `Real.ofDouble_toDouble`
-/

namespace PostScript

open Ieee

------------------------------------------------------------
-- Magnitudes
------------------------------------------------------------

namespace Ieee

/- Finite bits are a sign in front of a magnitude. -/
theorem Format.exists_magnitude
    {F : Format}
    {bits : Nat}
    {x : ℚ}
    (hBits : bits < 2 * F.signBit)
    (hx : (F.value bits).rational = some x) :
    ∃ negative b, b < F.infinityBits ∧
      bits = F.withSign negative b ∧
        x = (Value.signed negative (F.significand b) : ℚ) *
          (2 : ℚ) ^ F.exponent b := by
  rcases F.rational_eq_some hx with ⟨hTop, hValue⟩
  refine ⟨_, bits % F.signBit, F.magnitude_lt bits hTop,
    (F.withSign_magnitude hBits).symm, ?_⟩
  rw [F.significand_magnitude, hValue]
  unfold Format.exponent
  rw [F.exponentField_magnitude]

/- A value is rounded by its magnitude and keeps its sign. -/
theorem Format.round_of_rational
    (F : Format)
    {v : Value}
    {negative : Bool}
    {m : Nat}
    {e : Int}
    (hm : 0 < m)
    (hv :
      v.rational =
        some ((Value.signed negative m : ℚ) * (2 : ℚ) ^ e)) :
    ∃ num den : Nat, 0 < den ∧ (num : ℚ) / den = dyadic m e ∧
      F.round v = F.withSign negative (F.nearest num den) := by
  rcases Value.exists_finite hv with ⟨n, m', e', rfl, hSame⟩
  have hMagnitude : dyadic m' e' = dyadic m e := by
    rw [← abs_signed_mul n, ← hSame, abs_signed_mul]
  have hPos := dyadic_pos hm e
  have hSign : n = negative := by
    rw [Value.signed_mul, Value.signed_mul n, hMagnitude]
      at hSame
    have hUnit := mul_right_cancel₀ hPos.ne' hSame
    cases n <;> cases negative <;>
      simp [Value.signed] at hUnit ⊢ <;> norm_num at hUnit
  refine ⟨m' * power 2 e'.toNat, power 2 (-e').toNat,
    power_two_pos _, ?_, ?_⟩
  · rw [← dyadic_eq_quotient, hMagnitude]
  · rw [← hSign]
    rfl

end Ieee

namespace Real

------------------------------------------------------------
-- Parts
------------------------------------------------------------

/-
  The parts of a normal real: a sign, the bits of a magnitude,
  and the extension as it counts away from zero.
-/
structure HasParts
    (r : Real)
    (negative : Bool)
    (b : Nat)
    (t : Int) : Prop where
  bits : r.bits.toNat = Ieee.single.withSign negative b
  finite : b < Ieee.single.infinityBits
  normal : 2 ^ 23 ≤ Ieee.single.significand b
  extension :
    r.extension.toInt = Value.signed negative 1 * t

/- Normal numbers are not below the least of them. -/
theorem significand_normal
    {b : Nat}
    (h :
      (2 : ℚ) ^ (-126 : Int) ≤
        dyadic (Ieee.single.significand b)
          (Ieee.single.exponent b)) :
    2 ^ 23 ≤ Ieee.single.significand b := by
  by_contra hSmall
  rw [not_le] at hSmall
  have hLeast : Ieee.single.leastExponent = -149 := by decide
  have hUnit : power 2 Ieee.single.fractionBits = 8388608 := rfl
  have hField : Ieee.single.exponentField b = 0 := by
    by_contra hSome
    unfold Format.significand at hSmall
    rw [if_neg hSome, hUnit] at hSmall
    omega
  have hExponent : Ieee.single.exponent b = -149 := by
    unfold Format.exponent
    rw [hField, hLeast]
    rfl
  have hLess := dyadic_lt hSmall (Ieee.single.exponent b)
  rw [hExponent] at hLess h
  exact absurd h (not_le.mpr hLess)

/- Every normal real has its parts. -/
theorem exists_hasParts
    {r : Real}
    {v : ℚ}
    (hv : r.single.rational = some v)
    (hNormal : (2 : ℚ) ^ (-126 : Int) ≤ |v|) :
    ∃ negative b t, r.HasParts negative b t := by
  have hWord : 2 * Ieee.single.signBit = 2 ^ 32 := by decide
  rcases Format.exists_magnitude (hWord ▸ r.bits.toNat_lt) hv
    with ⟨negative, b, hFinite, hBits, rfl⟩
  rw [abs_signed_mul] at hNormal
  refine ⟨negative, b,
    Value.signed negative 1 * r.extension.toInt,
    hBits, hFinite, significand_normal hNormal, ?_⟩
  cases negative <;> simp [Value.signed]

namespace HasParts

variable {r : Real}
variable {negative : Bool}
variable {b : Nat}
variable {t : Int}
variable (h : r.HasParts negative b t)
include h

/- There are bits in the magnitude. -/
theorem ne_zero :
    b ≠ 0 := by
  rintro rfl
  exact absurd h.normal (by decide)

/- An extension of less than half a place leaves some units. -/
theorem exists_units
    (hLow : -(2 ^ 15) < t) :
    ∃ N : Nat, 0 < N ∧
      (N : Int) = Ieee.single.significand b * 2 ^ 16 + t := by
  have hNormal := h.normal
  refine ⟨(Ieee.single.significand b * 2 ^ 16 + t).toNat,
    ?_, ?_⟩ <;> omega

/- The number without its extension. -/
theorem rational_single :
    r.single.rational =
      some ((Value.signed negative
          (Ieee.single.significand b) : ℚ) *
        (2 : ℚ) ^ Ieee.single.exponent b) := by
  unfold Real.single
  rw [h.bits, Ieee.single.value_withSign negative h.finite]
  rfl

/- The place of the magnitude is the last place. -/
theorem lastPlace_eq :
    lastPlace r.bits = some (Ieee.single.exponent b) := by
  have hMagnitude :
      r.bits.toNat % Ieee.single.signBit = b := by
    rw [h.bits]
    exact Ieee.single.withSign_mod negative
      (h.finite.trans Ieee.single.infinityBits_lt)
  have hField :
      Ieee.single.exponentField r.bits.toNat =
        Ieee.single.exponentField b := by
    rw [← Ieee.single.exponentField_magnitude, hMagnitude]
  have hTop :=
    (Ieee.single.rational_eq_some h.rational_single).1
  have hSome : Ieee.single.exponentField b ≠ 0 := by
    intro hZero
    have hNormal := h.normal
    unfold Format.significand at hNormal
    rw [if_pos hZero] at hNormal
    exact absurd (Nat.mod_lt b (power_two_pos 23))
      (Nat.not_lt.mpr hNormal)
  unfold lastPlace
  dsimp only
  rw [hField] at hTop ⊢
  exact if_neg (not_or.mpr ⟨hSome, hTop⟩)

/- The number with it, in units of 2^-16 of the last place. -/
theorem exact_eq
    {N : Nat}
    (hN :
      (N : Int) = Ieee.single.significand b * 2 ^ 16 + t) :
    r.exact =
      some ((Value.signed negative N : ℚ) *
        (2 : ℚ) ^ (Ieee.single.exponent b - 16)) := by
  have hCast :
      (N : ℚ) = Ieee.single.significand b * 2 ^ 16 + t := by
    exact_mod_cast hN
  rw [exact_of_lastPlace h.lastPlace_eq h.rational_single,
    h.extension, zpow_sub₀ (by norm_num)]
  congr 1
  cases negative <;> simp [Value.signed, hCast] <;> ring

/-
  Below a power of two the places are half as wide. What is a
  part of a place below it is so much above the number before.
-/
theorem exists_before
    (hPower : Ieee.single.significand b = 2 ^ 23)
    (hAbove :
      Ieee.single.leastExponent < Ieee.single.exponent b)
    (hLow : -(2 ^ 15) < t)
    (hFar : t < -(2 ^ 14)) :
    ∃ r' : Real,
      r'.HasParts negative (b - 1) (2 * t + 2 ^ 16) ∧
        r'.exact = r.exact := by
  rcases single_before_power h.finite hPower hAbove with
    ⟨hSignificand, hExponent⟩
  have hPos := h.ne_zero
  have hBits :
      (r.bits - 1).toNat =
        Ieee.single.withSign negative (b - 1) := by
    have hSign := h.bits
    have hOne : (1 : UInt32).toNat = 1 := rfl
    unfold Format.withSign at hSign ⊢
    rw [UInt32.toNat_sub_of_le, hOne, hSign]
    · split <;> omega
    · rw [UInt32.le_iff_toNat_le, hOne, hSign]
      split <;> omega
  have hParts :
      HasParts
        ⟨r.bits - 1,
          Int16.ofInt
            (Value.signed negative 1 * (2 * t + 2 ^ 16))⟩
        negative (b - 1) (2 * t + 2 ^ 16) := by
    refine ⟨hBits, (Nat.sub_le b 1).trans_lt h.finite, ?_, ?_⟩
    · rw [hSignificand]
      decide
    · apply Int16.toInt_ofInt_of_le <;>
        cases negative <;> simp [Value.signed] <;> omega
  refine ⟨_, hParts, ?_⟩
  rcases h.exists_units hLow with ⟨N, -, hN⟩
  have hUnits :
      ((2 * N : Nat) : Int) =
        Ieee.single.significand (b - 1) * 2 ^ 16 +
          (2 * t + 2 ^ 16) := by
    rw [hSignificand]
    omega
  rw [hParts.exact_eq hUnits, h.exact_eq hN, hExponent,
    Value.signed_mul, Value.signed_mul]
  have hHalf :
      Ieee.single.exponent b - 16 =
        Ieee.single.exponent b - 1 - 16 + 1 := by
    omega
  unfold dyadic
  rw [hHalf, zpow_add_one₀ (by norm_num : (2 : ℚ) ≠ 0)]
  push_cast
  congr 1
  ring

end HasParts

------------------------------------------------------------
-- Recovered Reals
------------------------------------------------------------

namespace HasParts

variable {r : Real}
variable {negative : Bool}
variable {b : Nat}
variable {t : Int}
variable (h : r.HasParts negative b t)
variable (hExtension : -0x7fff ≤ r.extension.toInt)
include h hExtension

/- Extensions are less than half a place. -/
theorem extension_bounds :
    -(2 ^ 15) < t ∧ t < 2 ^ 15 := by
  have hMost := r.extension.toInt_lt
  have hUnits := h.extension
  cases negative <;> simp only [Value.signed] at hUnits <;>
    constructor <;> simp at hUnits <;> omega

/- In double precision the real is rounded by its magnitude. -/
theorem exists_round :
    ∃ N num den : Nat,
      (N : Int) = Ieee.single.significand b * 2 ^ 16 + t ∧
      0 < den ∧
      (num : ℚ) / den =
        dyadic N (Ieee.single.exponent b - 16) ∧
      Ieee.single.round (double.value r.toDouble.toNat) =
        Ieee.single.withSign negative
          (Ieee.single.nearest num den) := by
  have hLow := (h.extension_bounds hExtension).1
  rcases h.exists_units hLow with ⟨N, hPos, hN⟩
  have hDouble := rational_toDouble r
  rw [h.exact_eq hN] at hDouble
  rcases Ieee.single.round_of_rational hPos hDouble with
    ⟨num, den, hDen, hValue, hRound⟩
  exact ⟨N, num, den, hN, hDen, hValue, hRound⟩

/- No extension brings a normal number to zero. -/
theorem exists_exact :
    ∃ x, r.exact = some x ∧ x ≠ 0 := by
  have hLow := (h.extension_bounds hExtension).1
  rcases h.exists_units hLow with ⟨N, hPos, hN⟩
  refine ⟨_, h.exact_eq hN, ?_⟩
  rw [← abs_pos, abs_signed_mul]
  exact dyadic_pos hPos _

/-
  Unless the number is a power of two with narrower places
  below it, and the extension points there by more than half of
  such a place, the real is recovered.
-/
theorem ofDouble_same
    (hNear :
      Ieee.single.significand b = 2 ^ 23 →
        Ieee.single.leastExponent < Ieee.single.exponent b →
          -(2 ^ 14) ≤ t) :
    ofDouble r.toDouble = r := by
  rcases h.extension_bounds hExtension with ⟨hLow, hHigh⟩
  rcases h.exists_round hExtension with
    ⟨N, num, den, hN, hDen, hValue, hRound⟩
  rw [single_nearest_same h.finite hN hLow hDen hValue hHigh
    h.normal hNear, ← h.bits] at hRound
  exact ofDouble_eq h.lastPlace_eq hRound (rational_toDouble r)

/-
  Otherwise the number before it is what is recovered, with an
  extension that makes up for the difference.
-/
theorem ofDouble_before
    (hPower : Ieee.single.significand b = 2 ^ 23)
    (hAbove :
      Ieee.single.leastExponent < Ieee.single.exponent b)
    (hFar : t < -(2 ^ 14)) :
    (ofDouble r.toDouble).HasParts negative (b - 1)
        (2 * t + 2 ^ 16) ∧
      (ofDouble r.toDouble).exact = r.exact := by
  have hLow := (h.extension_bounds hExtension).1
  rcases h.exists_round hExtension with
    ⟨N, num, den, hN, hDen, hValue, hRound⟩
  have hNearest :=
    single_nearest_before h.finite hN hLow hDen hValue hPower
      hAbove hFar
  rcases h.exists_before hPower hAbove hLow hFar with
    ⟨r', hParts, hExact⟩
  have hBits :
      Ieee.single.round (double.value r.toDouble.toNat) =
        r'.bits.toNat := by
    rw [hRound, hParts.bits, ← hNearest, Nat.add_sub_cancel]
  rw [ofDouble_eq hParts.lastPlace_eq hBits
    ((rational_toDouble r).trans hExact.symm)]
  exact ⟨hParts, hExact⟩

end HasParts

/-
  The number is a power of two, and the extension points from it
  towards zero by more than a quarter of the last place, which
  is 16384 units.
-/
structure Inward
    (r : Real)
    (v : ℚ) : Prop where
  power : ∃ k : Int, |v| = (2 : ℚ) ^ k
  towards : v * r.extension.toInt < 0
  far : 16384 < |r.extension.toInt|

/- A significand of a power of two has its leading bit alone. -/
theorem dyadic_eq_power_iff
    {m : Nat}
    (hLow : 2 ^ 23 ≤ m)
    (hHigh : m < 2 ^ 24)
    (e : Int) :
    (∃ k : Int, dyadic m e = (2 : ℚ) ^ k) ↔ m = 2 ^ 23 := by
  constructor
  · rintro ⟨k, hk⟩
    have hLower := le_dyadic hLow e
    have hUpper := dyadic_lt hHigh e
    rw [hk, zpow_le_zpow_iff_right₀ (by norm_num)] at hLower
    rw [hk, zpow_lt_zpow_iff_right₀ (by norm_num)] at hUpper
    have hPlace : k = (23 : Nat) + e := by omega
    rw [hPlace, ← dyadic_power] at hk
    have hCast :=
      mul_right_cancel₀ (zpow_ne_zero e (by norm_num)) hk
    exact_mod_cast hCast
  · rintro rfl
    exact ⟨_, dyadic_power 23 e⟩

namespace HasParts

variable {r : Real}
variable {negative : Bool}
variable {b : Nat}
variable {t : Int}
variable {v : ℚ}
variable (h : r.HasParts negative b t)
variable (hv : r.single.rational = some v)
include h hv

/- The magnitude without the extension. -/
theorem abs_eq :
    |v| = dyadic (Ieee.single.significand b)
      (Ieee.single.exponent b) := by
  rw [h.rational_single, Option.some.injEq] at hv
  rw [← hv, abs_signed_mul]

/- Which parts point inward. -/
theorem inward_iff :
    r.Inward v ↔
      Ieee.single.significand b = 2 ^ 23 ∧ t < -(2 ^ 14) := by
  have hAbs := h.abs_eq hv
  have hMost : Ieee.single.significand b < 2 ^ 24 :=
    Ieee.single.significand_lt b
  have hPower :=
    dyadic_eq_power_iff h.normal hMost (Ieee.single.exponent b)
  have hFar : |r.extension.toInt| = |t| := by
    rw [h.extension]
    cases negative <;> simp [Value.signed]
  have hProduct :
      v * r.extension.toInt =
        dyadic (Ieee.single.significand b)
          (Ieee.single.exponent b) * t := by
    rw [h.rational_single, Option.some.injEq] at hv
    rw [← hv, h.extension, Value.signed_mul]
    cases negative <;> simp [Value.signed]
  have hPos : 0 < dyadic (Ieee.single.significand b)
      (Ieee.single.exponent b) := by
    have hNormal := h.normal
    exact dyadic_pos (by omega) _
  have hTowards : v * r.extension.toInt < 0 ↔ t < 0 := by
    rw [hProduct, ← smul_eq_mul, smul_neg_iff_of_pos_left hPos,
      Int.cast_lt_zero]
  constructor
  · rintro ⟨hPowers, hNegative, hUnits⟩
    rw [hAbs, hPower] at hPowers
    rw [hTowards] at hNegative
    rw [hFar, abs_of_neg hNegative] at hUnits
    exact ⟨hPowers, by omega⟩
  · rintro ⟨hLeading, hUnits⟩
    have hNegative : t < 0 := by omega
    refine ⟨?_, hTowards.mpr hNegative, ?_⟩
    · rw [hAbs, hPower]
      exact hLeading
    · rw [hFar, abs_of_neg hNegative]
      omega

/- Which powers of two have narrower places below them. -/
theorem above_iff
    (hPower : Ieee.single.significand b = 2 ^ 23) :
    Ieee.single.leastExponent < Ieee.single.exponent b ↔
      (2 : ℚ) ^ (-126 : Int) < |v| := by
  have hLeast : Ieee.single.leastExponent = -149 := by decide
  have hAbs :
      |v| =
        (2 : ℚ) ^ ((23 : Nat) + Ieee.single.exponent b) := by
    rw [h.abs_eq hv, hPower]
    exact dyadic_power 23 _
  rw [hAbs, zpow_lt_zpow_iff_right₀ (by norm_num), hLeast]
  omega

end HasParts

------------------------------------------------------------
-- Round Trips
------------------------------------------------------------

section

variable {r : Real}
variable {v : ℚ}
variable (hFinite : r.single.rational = some v)
variable (hNormal : (2 : ℚ) ^ (-126 : Int) ≤ |v|)
variable (hExtension : -0x7fff ≤ r.extension.toInt)
include hFinite hNormal hExtension

/-
  A normal real is recovered from its value in double precision
  unless its extension points inward. The least normal number
  is always recovered, since the places below it are no
  narrower.
-/
theorem ofDouble_eq_self_iff :
    ofDouble r.toDouble = r ↔
      ¬ (r.Inward v ∧ (2 : ℚ) ^ (-126 : Int) < |v|) := by
  rcases exists_hasParts hFinite hNormal with
    ⟨negative, b, t, h⟩
  rw [h.inward_iff hFinite]
  constructor
  · rintro hSame ⟨⟨hPower, hFar⟩, hGreater⟩
    have hAbove := (h.above_iff hFinite hPower).mpr hGreater
    have hBefore :=
      (h.ofDouble_before hExtension hPower hAbove hFar).1.bits
    rw [hSame, h.bits] at hBefore
    have hPos := h.ne_zero
    unfold Format.withSign at hBefore
    split at hBefore <;> omega
  · intro hNot
    apply h.ofDouble_same hExtension
    intro hPower hAbove
    by_contra hFar
    rw [h.above_iff hFinite hPower] at hAbove
    exact hNot ⟨⟨hPower, by omega⟩, hAbove⟩

/- No normal real loses its exact value. -/
theorem exact_ofDouble_toDouble :
    (ofDouble r.toDouble).exact = r.exact := by
  by_cases hSame : ofDouble r.toDouble = r
  · rw [hSame]
  · rw [ofDouble_eq_self_iff hFinite hNormal hExtension,
      not_not] at hSame
    rcases hSame with ⟨hInward, hGreater⟩
    rcases exists_hasParts hFinite hNormal with
      ⟨negative, b, t, h⟩
    rcases (h.inward_iff hFinite).mp hInward with
      ⟨hPower, hFar⟩
    have hAbove := (h.above_iff hFinite hPower).mpr hGreater
    exact (h.ofDouble_before hExtension hPower hAbove hFar).2

/-
  The value of a normal real in double precision is exact: the
  extension counts in units of 2^-16 of the last place. Both the
  value and, unless the extension points inward from a power of
  two, the real itself are recovered from it.
-/
theorem ofDouble_toDouble :
    (∃ place : Int,
      (2 : ℚ) ^ (place + 23) ≤ |v| ∧
      |v| < (2 : ℚ) ^ (place + 24) ∧
      (double.value r.toDouble.toNat).rational =
        some (v + r.extension.toInt * (2 : ℚ) ^ place /
          2 ^ 16)) ∧
      (ofDouble r.toDouble).toDouble = r.toDouble ∧
      (¬ r.Inward v → ofDouble r.toDouble = r) := by
  rcases exists_hasParts hFinite hNormal with
    ⟨negative, b, t, h⟩
  refine ⟨⟨Ieee.single.exponent b, ?_, ?_, ?_⟩, ?_, ?_⟩
  · rw [h.abs_eq hFinite, add_comm]
    exact le_dyadic h.normal _
  · rw [h.abs_eq hFinite, add_comm]
    exact dyadic_lt (Ieee.single.significand_lt b) _
  · rw [rational_toDouble,
      exact_of_lastPlace h.lastPlace_eq hFinite,
      zpow_sub₀ (by norm_num), mul_div_assoc]
    rfl
  · rcases h.exists_exact hExtension with ⟨x, hx, hSome⟩
    exact toDouble_eq_of_exact
      ((exact_ofDouble_toDouble hFinite hNormal
        hExtension).trans hx) hx hSome
  · intro hNot
    apply (ofDouble_eq_self_iff hFinite hNormal
      hExtension).mpr
    exact fun hBoth => hNot hBoth.1

end

/-
  The number -3.25 is recovered with the least extension. The
  number 1 with 20000 units towards zero becomes the number
  before it with 25536 of its units, which is the same value.
-/
theorem ofDouble_toDouble_inward :
    (Real.single ⟨0xc0500000, -0x7fff⟩).rational =
        some (-13 / 4) ∧
      ofDouble (toDouble ⟨0xc0500000, -0x7fff⟩) =
        ⟨0xc0500000, -0x7fff⟩ ∧
      (Real.single ⟨0x3f800000, -20000⟩).rational = some 1 ∧
      (ofDouble (toDouble ⟨0x3f800000, -20000⟩)).toDouble =
        toDouble ⟨0x3f800000, -20000⟩ ∧
      ofDouble (toDouble ⟨0x3f800000, -20000⟩) =
        ⟨0x3f7fffff, 25536⟩ := by
  have hBelow :
      Real.single ⟨0xc0500000, -0x7fff⟩ =
        .finite true 13631488 (-22) := by
    decide
  have hQuarters :
      (Real.single ⟨0xc0500000, -0x7fff⟩).rational =
        some (-13 / 4) := by
    rw [hBelow, Value.rational_finite]
    norm_num [Value.signed]
  have hPower :
      Real.single ⟨0x3f800000, -20000⟩ =
        .finite false 8388608 (-23) := by
    decide
  have hOne :
      (Real.single ⟨0x3f800000, -20000⟩).rational = some 1 := by
    rw [hPower, Value.rational_finite]
    norm_num [Value.signed]
  refine ⟨hQuarters, ?_, hOne, ?_, by decide +kernel⟩
  · refine (ofDouble_toDouble hQuarters (by norm_num)
      (by decide)).2.2 ?_
    rintro ⟨-, hTowards, -⟩
    have hExtension : (-0x7fff : Int16).toInt = -0x7fff := by
      decide
    rw [hExtension] at hTowards
    norm_num at hTowards
  · exact (ofDouble_toDouble hOne (by norm_num)
      (by decide)).2.1

end Real

end PostScript
