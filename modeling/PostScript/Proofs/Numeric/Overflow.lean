import PostScript.Proofs.Numeric.Spelled
import PostScript.Proofs.Numeric.Unique

/-
  This file shows that a magnitude of any size is rounded to
  the nearest one, with infinity in the place of the power of
  two that would come next. What is too great is rounded to
  infinity, and what is too small to zero.

  Key definitions include:
    * `Ieee.Format.Nearest`

  Main results:
    * `Ieee.Format.nearest_nearest`
    * `Ieee.Format.round_withSign`
    * `Ieee.Format.Nearest.eq_infinity`
    * `Ieee.Format.Nearest.eq_zero`
-/

namespace PostScript.Ieee.Format

variable {F : Format}

------------------------------------------------------------
-- Magnitudes
------------------------------------------------------------

/- Nothing has no bits. -/
theorem magnitude_zero :
    F.magnitude 0 = 0 := by
  simp [magnitude, dyadic, significand, exponentField]

/- An exponent with no fraction stands for a power of two. -/
theorem magnitude_power
    {field : Nat}
    (hLower : 0 < field)
    (hUpper : field ≤ F.topExponent) :
    F.magnitude (field * power 2 F.fractionBits) =
      (2 : ℚ) ^ ((F.fractionBits : Int) +
        (F.leastExponent + (field - 1 : Nat))) := by
  have hField :
      F.exponentField (field * power 2 F.fractionBits) =
        field := by
    rw [F.exponentField_eq (Nat.mul_le_mul_right _ hUpper)]
    exact Nat.mul_div_cancel _ (power_two_pos _)
  have hFraction :
      field * power 2 F.fractionBits %
        power 2 F.fractionBits = 0 :=
    Nat.mul_mod_left _ _
  unfold magnitude dyadic significand exponent
  rw [hField, hFraction,
    if_neg (Nat.pos_iff_ne_zero.mp hLower), Nat.add_zero,
    cast_power, ← zpow_natCast, ← zpow_add₀ (by norm_num)]

/- Infinity stands in the place of such a power. -/
theorem magnitude_infinity
    (hTop : 0 < F.topExponent) :
    F.magnitude F.infinityBits =
      (2 : ℚ) ^ ((F.fractionBits : Int) +
        (F.leastExponent + (F.topExponent - 1 : Nat))) :=
  F.magnitude_power hTop (Nat.le_refl _)

/- Different bits stand for different magnitudes. -/
theorem magnitude_inj
    (hFraction : 0 < F.fractionBits)
    {a b : Nat}
    (ha : a ≤ F.infinityBits)
    (hb : b ≤ F.infinityBits)
    (hSame : F.magnitude a = F.magnitude b) :
    a = b := by
  rcases Nat.lt_trichotomy a b with h | h | h
  · exact absurd hSame (magnitude_lt_of_lt hFraction h hb).ne
  · exact h
  · exact absurd hSame
      (magnitude_lt_of_lt hFraction h ha).ne'

/- Greater bits do not stand for a lesser magnitude. -/
theorem magnitude_le
    (hFraction : 0 < F.fractionBits)
    {a b : Nat}
    (hLess : a ≤ b)
    (hb : b ≤ F.infinityBits) :
    F.magnitude a ≤ F.magnitude b := by
  rcases Nat.eq_or_lt_of_le hLess with rfl | h
  · exact le_refl _
  · exact (magnitude_lt_of_lt hFraction h hb).le

------------------------------------------------------------
-- Nearest Magnitudes
------------------------------------------------------------

/-
  No bits up to those of infinity are nearer to a magnitude
  than these, and if others are as near, the significand of
  these is even.
-/
def Nearest
    (F : Format)
    (x : ℚ)
    (bits : Nat) : Prop :=
  bits ≤ F.infinityBits ∧
    ∀ other, other ≤ F.infinityBits →
      |x - F.magnitude bits| ≤ |x - F.magnitude other| ∧
        (|x - F.magnitude bits| = |x - F.magnitude other| →
          other = bits ∨ F.significand bits % 2 = 0)

/- What is not less than infinity is nearest to it. -/
theorem nearest_infinity
    (hFraction : 0 < F.fractionBits)
    {x : ℚ}
    (hx : F.magnitude F.infinityBits ≤ x) :
    F.Nearest x F.infinityBits := by
  refine ⟨Nat.le_refl _, ?_⟩
  intro other hOther
  have hLess :=
    magnitude_le hFraction hOther (Nat.le_refl _)
  rw [abs_of_nonneg (sub_nonneg.mpr hx),
    abs_of_nonneg (sub_nonneg.mpr (hLess.trans hx))]
  refine ⟨by linarith, fun hEqual => .inl ?_⟩
  exact magnitude_inj hFraction hOther (Nat.le_refl _)
    (by linarith)

/- What would be rounded past infinity is not less. -/
theorem infinity_le_of_unclamped
    (hTop : 2 ≤ F.topExponent)
    {num den : Nat}
    (hDen : 0 < den)
    (hPast : F.infinityBits < F.unclamped num den) :
    F.magnitude F.infinityBits ≤ (num : ℚ) / den := by
  rcases Nat.eq_zero_or_pos num with rfl | hNum
  · simp [unclamped] at hPast
  · set x : ℚ := (num : ℚ) / den with hx
    have hPos : 0 < x := by
      have hNumCast : (0 : ℚ) < num := by exact_mod_cast hNum
      have hDenCast : (0 : ℚ) < den := by exact_mod_cast hDen
      positivity
    obtain ⟨p, hp⟩ : ∃ p, p = F.place x := ⟨_, rfl⟩
    rw [F.unclamped_eq hNum hDen (hp.trans (by rw [hx])) rfl]
      at hPast
    have hHigh :=
      (F.roundHalfEven_place hNum hDen
        (hp.trans (by rw [hx]))).1
    rw [power_succ] at hHigh
    -- The exponent has reached the last one of a number.
    have hReached :
        F.topExponent - 1 ≤ (p - F.leastExponent).toNat := by
      by_contra hBelow
      have hTwo :
          (p - F.leastExponent).toNat + 2 ≤ F.topExponent := by
        omega
      have hBits :=
        Nat.mul_le_mul_right (power 2 F.fractionBits) hTwo
      rw [Nat.add_mul] at hBits
      unfold infinityBits at hPast
      omega
    have hAbove : F.leastExponent < F.place x := by
      omega
    rw [magnitude_infinity (by omega)]
    refine le_trans ?_ (F.zpow_place_le hPos hAbove)
    exact zpow_le_zpow_right₀ (by norm_num) (by omega)

/-
  A fraction is rounded to the nearest magnitude, however
  great it is.
-/
theorem nearest_nearest
    (hFraction : 0 < F.fractionBits)
    (hTop : 2 ≤ F.topExponent)
    (num : Nat)
    {den : Nat}
    (hDen : 0 < den) :
    F.Nearest ((num : ℚ) / den) (F.nearest num den) := by
  by_cases hClamped : F.unclamped num den ≤ F.infinityBits
  · refine ⟨F.nearest_le num den, ?_⟩
    intro other hOther
    have hNonneg : 0 ≤ F.magnitude other := by
      unfold magnitude dyadic
      positivity
    rcases F.nearest_optimal hFraction hDen hClamped rfl
        (abs_of_nonneg hNonneg) with
      ⟨hNear, hEven⟩
    refine ⟨hNear, fun hEqual => ?_⟩
    rcases hEven hEqual with hSame | hEven
    · exact .inl (magnitude_inj hFraction hOther
        (F.nearest_le num den) hSame)
    · exact .inr hEven
  · have hPast := Nat.lt_of_not_le hClamped
    rw [F.nearest_eq_min, Nat.min_eq_left hPast.le]
    exact nearest_infinity hFraction
      (infinity_le_of_unclamped hTop hDen hPast)

/- Every magnitude has a nearest one. -/
theorem exists_nearest
    (hFraction : 0 < F.fractionBits)
    (hTop : 2 ≤ F.topExponent)
    {x : ℚ}
    (hx : 0 ≤ x) :
    ∃ bits, F.Nearest x bits := by
  have hNearest :=
    nearest_nearest hFraction hTop x.num.toNat x.den_pos
  have hSame : ((x.num.toNat : Nat) : ℚ) / x.den = x := by
    have hNum : ((x.num.toNat : Nat) : Int) = x.num :=
      Int.toNat_of_nonneg (Rat.num_nonneg.mpr hx)
    have hCast : ((x.num.toNat : Nat) : ℚ) = (x.num : ℚ) := by
      exact_mod_cast congrArg (Int.cast : Int → ℚ) hNum
    rw [hCast, Rat.num_div_den]
  rw [hSame] at hNearest
  exact ⟨_, hNearest⟩

------------------------------------------------------------
-- Bounds
------------------------------------------------------------

variable {x : ℚ}
variable {bits c : Nat}

/- Rounding does not go below a magnitude that there is. -/
theorem Nearest.le_magnitude
    (h : F.Nearest x bits)
    (hc : c ≤ F.infinityBits)
    (hx : F.magnitude c ≤ x) :
    F.magnitude c ≤ F.magnitude bits := by
  by_contra hLess
  rw [not_le] at hLess
  have hNear := (h.2 c hc).1
  rw [abs_of_nonneg (by linarith), abs_of_nonneg (by linarith)]
    at hNear
  linarith

/- Nor does it go above one. -/
theorem Nearest.magnitude_le
    (h : F.Nearest x bits)
    (hc : c ≤ F.infinityBits)
    (hx : x ≤ F.magnitude c) :
    F.magnitude bits ≤ F.magnitude c := by
  by_contra hLess
  rw [not_le] at hLess
  have hNear := (h.2 c hc).1
  rw [abs_of_nonpos (by linarith), abs_of_nonpos (by linarith)]
    at hNear
  linarith

/- What is not less than infinity is rounded to it. -/
theorem Nearest.eq_infinity
    (hFraction : 0 < F.fractionBits)
    (h : F.Nearest x bits)
    (hx : F.magnitude F.infinityBits ≤ x) :
    bits = F.infinityBits := by
  refine Nat.le_antisymm h.1 ?_
  by_contra hLess
  have hGrows :=
    magnitude_lt_of_lt hFraction (Nat.lt_of_not_le hLess)
      (Nat.le_refl _)
  exact absurd (h.le_magnitude (Nat.le_refl _) hx)
    (not_le.mpr hGrows)

/- What is less than half the least magnitude is nothing. -/
theorem Nearest.eq_zero
    (hFraction : 0 < F.fractionBits)
    (h : F.Nearest x bits)
    (hNonneg : 0 ≤ x)
    (hx : 2 * x < F.magnitude 1) :
    bits = 0 := by
  by_contra hSome
  have hLeast :=
    Format.magnitude_le hFraction
      (Nat.one_le_iff_ne_zero.mpr hSome) h.1
  have hNear := (h.2 0 (Nat.zero_le _)).1
  rw [magnitude_zero, sub_zero, abs_of_nonneg hNonneg,
    abs_of_nonpos (by linarith)] at hNear
  linarith

------------------------------------------------------------
-- Values
------------------------------------------------------------

/-
  The magnitude of a number or of infinity is rounded to the
  nearest one of another format and keeps its sign. Infinity
  stays infinity, and must not be less in the format that it
  comes from.
-/
theorem round_withSign
    {G : Format}
    (hFraction : 0 < F.fractionBits)
    (hTop : 2 ≤ F.topExponent)
    (hRange :
      F.magnitude F.infinityBits ≤
        G.magnitude G.infinityBits)
    (negative : Bool)
    {a : Nat}
    (ha : a ≤ G.infinityBits) :
    ∃ b,
      F.round (G.value (G.withSign negative a)) =
          F.withSign negative b ∧
        F.Nearest (G.magnitude a) b := by
  rcases Nat.eq_or_lt_of_le ha with rfl | hFinite
  · rw [value_infinity]
    exact ⟨F.infinityBits, rfl,
      nearest_infinity hFraction hRange⟩
  · rw [G.value_withSign negative hFinite]
    refine ⟨_, rfl, ?_⟩
    unfold magnitude
    rw [dyadic_eq_quotient]
    exact nearest_nearest hFraction hTop _ (power_two_pos _)

end PostScript.Ieee.Format
