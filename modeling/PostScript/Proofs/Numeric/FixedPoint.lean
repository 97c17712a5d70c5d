import PostScript.Numeric.FixedPoint
import PostScript.Proofs.Numeric.Rounding

/-
  This file shows that a single-precision number that is
  written as a fixed-point number is read back bit for bit.

  Main results:
    * `FixedPoint.toSingle_ofSingle?`
    * `FixedPoint.scale_ofSingle?`
-/

namespace PostScript.FixedPoint

open Ieee

/- A whole number `m * 2 ^ k` is what `whole` computes. -/
theorem whole_eq
    {m : Nat}
    {k : Int}
    (hWhole : isWhole m k = true) :
    (whole m k : ℚ) = dyadic m k := by
  have hPos := power_two_pos (-k).toNat
  have hCast : ((power 2 (-k).toNat : Nat) : ℚ) ≠ 0 := by
    exact_mod_cast Nat.pos_iff_ne_zero.mp hPos
  have hDvd :
      power 2 (-k).toNat ∣ m * power 2 k.toNat :=
    Nat.dvd_of_mod_eq_zero (by simpa [isWhole] using hWhole)
  rw [dyadic_eq_quotient, eq_div_iff hCast]
  unfold whole
  exact_mod_cast Nat.div_mul_cancel hDvd

/-
  What a fixed-point form tells: it stands for a finite number
  other than zero, its scale is in range, and its mantissa is
  that number in units of the scale.
-/
theorem ofSingle?_eq_some
    {bits : UInt32}
    {x : FixedPoint}
    (h : ofSingle? bits = some x) :
    single.exponentField bits.toNat ≠ single.topExponent ∧
      single.significand bits.toNat ≠ 0 ∧
      1 ≤ x.scale ∧ x.scale ≤ 31 ∧
      ∃ n, 0 < n ∧ n ≤ 0x7fffffff ∧
        x.mantissa =
          Int32.ofInt
            (Value.signed
              (bits.toNat / single.signBit % 2 == 1) n) ∧
        (n : ℚ) =
          dyadic (single.significand bits.toNat)
            (single.exponent bits.toNat + x.scale) := by
  unfold ofSingle? at h
  by_cases hTop :
      single.exponentField bits.toNat = single.topExponent
  · have hValue :
        ∀ negative m e,
          single.value bits.toNat ≠
            .finite negative m e := by
      intro negative m e
      unfold Format.value
      dsimp only
      rw [if_pos hTop]
      split <;> simp
    split at h
    next hFinite => exact absurd hFinite (hValue _ _ _)
    next => contradiction
  · rw [single.value_eq _ hTop] at h
    dsimp only at h
    split at h
    · contradiction
    next hSignificand =>
      split at h
      next s hFind =>
        split at h
        next hFits =>
          have hScale := List.mem_of_find?_eq_some hFind
          rw [List.mem_range'_1] at hScale
          have hHigh : s ≤ 31 := by omega
          have hIsWhole := List.find?_some hFind
          have hWhole := whole_eq hIsWhole
          simp only [Option.some.injEq] at h
          subst h
          refine ⟨hTop, hSignificand, hScale.1, hHigh,
            _, ?_, hFits, rfl, hWhole⟩
          have hPos :=
            dyadic_pos (Nat.pos_of_ne_zero hSignificand)
              (single.exponent bits.toNat + s)
          rw [← hWhole] at hPos
          exact_mod_cast hPos
        next => contradiction
      next => contradiction

/- The scale of a fixed-point form is from 1 to 31. -/
theorem scale_ofSingle?
    {bits : UInt32}
    {x : FixedPoint}
    (h : ofSingle? bits = some x) :
    1 ≤ x.scale ∧ x.scale ≤ 31 := by
  rcases ofSingle?_eq_some h with ⟨-, -, hLow, hHigh, -⟩
  exact ⟨hLow, hHigh⟩

/- A fixed-point form has the sign and the magnitude. -/
theorem dyadic_ofSingle?
    {bits : UInt32}
    {x : FixedPoint}
    (h : ofSingle? bits = some x) :
    decide (x.mantissa.toInt < 0) =
        (bits.toNat / single.signBit % 2 == 1) ∧
      dyadic x.mantissa.toInt.natAbs (-(x.scale : Int)) =
        dyadic (single.significand bits.toNat)
          (single.exponent bits.toNat) := by
  rcases ofSingle?_eq_some h with
    ⟨-, -, -, -, n, hn, hFits, hMantissa, hValue⟩
  generalize
    (bits.toNat / single.signBit % 2 == 1) = negative
    at hMantissa ⊢
  have hInt :
      x.mantissa.toInt = Value.signed negative n := by
    rw [hMantissa]
    apply Int32.toInt_ofInt_of_le
    · unfold Value.signed
      split <;> omega
    · unfold Value.signed
      split <;> omega
  have hAbs : x.mantissa.toInt.natAbs = n := by
    rw [hInt]
    cases negative <;> simp [Value.signed]
  constructor
  · rw [hInt]
    cases negative with
    | false => simp [Value.signed]
    | true =>
        simp [Value.signed]
        omega
  · rw [hAbs]
    unfold dyadic at hValue ⊢
    rw [hValue, mul_assoc,
      ← zpow_add₀ (by norm_num : (2 : ℚ) ≠ 0),
      add_neg_cancel_right]

/-
  What has the sign and the magnitude of a fixed-point form is
  rounded to the bits that the form was made from.
-/
theorem round_ofSingle?
    {bits : UInt32}
    {x : FixedPoint}
    (h : ofSingle? bits = some x)
    {m : Nat}
    {e : Int}
    (hSame :
      dyadic m e =
        dyadic x.mantissa.toInt.natAbs (-(x.scale : Int))) :
    single.round (.finite (x.mantissa.toInt < 0) m e) =
      bits.toNat := by
  rcases ofSingle?_eq_some h with ⟨hFinite, hPos, -⟩
  rcases dyadic_ofSingle? h with ⟨hNegative, hDyadic⟩
  have hBits : bits.toNat < 2 * single.signBit := by
    have hSign : single.signBit = 0x80000000 := by
      decide
    rw [hSign]
    exact bits.toNat_lt
  rw [hNegative]
  exact single.round_eq hBits hFinite hPos
    (hSame.trans hDyadic)

/- A fixed-point form gives back the bits it was made from. -/
theorem toSingle_ofSingle?
    {bits : UInt32}
    {x : FixedPoint}
    (h : ofSingle? bits = some x) :
    x.toSingle = bits := by
  unfold toSingle
  rw [round_ofSingle? h rfl, UInt32.ofNat_toNat]

end PostScript.FixedPoint
