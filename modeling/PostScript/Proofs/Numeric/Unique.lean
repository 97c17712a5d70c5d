import PostScript.Proofs.Numeric.Nearest

/-
  This file shows that an exact number is rounded to one bit
  pattern alone. Magnitudes grow with their bits, so that two
  patterns that are equally near have no other pattern between
  them, and one of them has an odd significand.

  Key definitions include:
    * `Ieee.Format.magnitude`

  Main results:
    * `Ieee.Format.magnitude_succ`
    * `Ieee.Format.magnitude_lt_of_lt`
    * `Ieee.Format.Rounds.unique`
    * `Ieee.single_bits_unique`
-/

namespace PostScript.Ieee

namespace Format

variable {F : Format}

------------------------------------------------------------
-- Magnitudes
------------------------------------------------------------

/- The number that bits stand for without their sign. -/
def magnitude
    (F : Format)
    (bits : Nat) : ℚ :=
  dyadic (F.significand bits) (F.exponent bits)

/-
  The next bits stand for the next significand at the same
  place, also where they begin another exponent.
-/
theorem magnitude_succ
    (hFraction : 0 < F.fractionBits)
    {bits : Nat}
    (hNext : bits < F.infinityBits) :
    F.magnitude (bits + 1) =
      dyadic (F.significand bits + 1) (F.exponent bits) := by
  have hBits := F.bits_eq bits hNext
  unfold magnitude
  refine (F.dyadic_of_place hFraction ?_
    (F.significand_lt bits) ?_ ?_ hNext).1
  · unfold exponent
    omega
  · intro hAbove
    unfold exponent at hAbove
    unfold significand
    split <;> omega
  · omega

/- Greater bits stand for a greater magnitude. -/
theorem magnitude_lt_of_lt
    (hFraction : 0 < F.fractionBits)
    {a b : Nat}
    (hLess : a < b)
    (hb : b ≤ F.infinityBits) :
    F.magnitude a < F.magnitude b := by
  have hStep :
      ∀ n, n < F.infinityBits →
        F.magnitude n < F.magnitude (n + 1) := by
    intro n hn
    have hPower : (0 : ℚ) < (2 : ℚ) ^ F.exponent n :=
      zpow_pos (by norm_num) _
    rw [magnitude_succ hFraction hn]
    unfold magnitude dyadic
    push_cast
    linarith
  induction b, hLess using Nat.le_induction with
  | base => exact hStep a hb
  | succ n _ ih =>
      exact (ih (Nat.le_of_succ_le hb)).trans (hStep n hb)

/- The last bit of a significand is the last bit. -/
theorem significand_mod_two
    (hFraction : 0 < F.fractionBits)
    (bits : Nat) :
    F.significand bits % 2 = bits % 2 := by
  have hEven := F.unit_even hFraction
  have hLast :
      bits % power 2 F.fractionBits % 2 = bits % 2 :=
    Nat.mod_mod_of_dvd bits (Nat.dvd_of_mod_eq_zero hEven)
  unfold significand
  split <;> omega

------------------------------------------------------------
-- Uniqueness
------------------------------------------------------------

/- A number and another with its sign differ in magnitude. -/
theorem abs_sub_signed
    (x : ℚ)
    (m : Nat)
    (e : Int) :
    |x - (Value.signed (decide (x < 0)) m : ℚ) *
        (2 : ℚ) ^ e| =
      |(|x| - dyadic m e)| := by
  by_cases hx : x < 0
  · rw [decide_eq_true hx, abs_of_neg hx, ← abs_neg]
    congr 1
    simp [Value.signed, dyadic]
    ring
  · rw [decide_eq_false hx, abs_of_nonneg (not_lt.mp hx)]
    rfl

/- Of two ends that are equally far, what is between is nearer. -/
theorem abs_sub_lt_of_between
    {x u v w : ℚ}
    (hSame : |x - u| = |x - w|)
    (huv : u < v)
    (hvw : v < w) :
    |x - v| < |x - u| := by
  have hMiddle : x = (u + w) / 2 := by
    rcases abs_eq_abs.mp hSame with h | h <;> linarith
  rw [hMiddle, abs_lt, abs_of_nonneg (by linarith)]
  constructor <;> linarith

/-
  What the bits that a number is rounded to owe to any other
  magnitude: they are as near, and if they are no nearer, they
  are the same number or their significand is even.
-/
theorem Rounds.near
    {x : ℚ}
    {a : Nat}
    (hA : F.Rounds x a) :
    a % F.signBit < F.infinityBits ∧
      ∀ b, b < F.infinityBits →
        |(|x| - F.magnitude (a % F.signBit))| ≤
            |(|x| - F.magnitude b)| ∧
          (|(|x| - F.magnitude (a % F.signBit))| =
              |(|x| - F.magnitude b)| →
            F.magnitude b = F.magnitude (a % F.signBit) ∨
              F.significand (a % F.signBit) % 2 = 0) := by
  rcases hA with ⟨y, hy, hSign, hNear⟩
  rcases F.rational_eq_some hy with ⟨hTop, hyValue⟩
  have hSame :
      F.magnitude (a % F.signBit) =
        dyadic (F.significand a) (F.exponent a) := by
    unfold magnitude exponent
    rw [F.significand_magnitude, F.exponentField_magnitude]
  rw [hSame, F.significand_magnitude]
  refine ⟨F.magnitude_lt a hTop, ?_⟩
  intro b hb
  have hRational :
      (F.value (F.withSign (decide (x < 0)) b)).rational =
        some ((Value.signed (decide (x < 0))
            (F.significand b) : ℚ) *
          (2 : ℚ) ^ F.exponent b) := by
    rw [F.value_withSign _ hb]
    rfl
  have hBoth := hNear _ _ hRational
  rw [hSign] at hyValue
  rw [hyValue, abs_sub_signed, abs_sub_signed] at hBoth
  refine ⟨hBoth.1, fun hEqual => ?_⟩
  rcases hBoth.2 hEqual with hNumber | hEven
  · left
    have hAbs := congrArg abs hNumber
    rw [abs_signed_mul, abs_signed_mul] at hAbs
    exact hAbs
  · exact .inr hEven

/- Neither of two roundings has a greater magnitude. -/
theorem Rounds.not_lt
    (hFraction : 0 < F.fractionBits)
    {x : ℚ}
    {a b : Nat}
    (hA : F.Rounds x a)
    (hB : F.Rounds x b) :
    ¬ a % F.signBit < b % F.signBit := by
  intro hLess
  rcases hA.near with ⟨ha, hNearA⟩
  rcases hB.near with ⟨hb, hNearB⟩
  generalize a % F.signBit = m at *
  generalize b % F.signBit = n at *
  have hGrows := magnitude_lt_of_lt hFraction hLess hb.le
  have hEqual := (hNearA n hb).1.antisymm (hNearB m ha).1
  rcases Nat.eq_or_lt_of_le hLess with hNext | hBetween
  · -- They are neighbours, and cannot both be even.
    have hEvenA :=
      ((hNearA n hb).2 hEqual).resolve_left hGrows.ne'
    have hEvenB :=
      ((hNearB m ha).2 hEqual.symm).resolve_left hGrows.ne
    rw [significand_mod_two hFraction] at hEvenA hEvenB
    omega
  · -- What follows the lesser would be nearer than it is.
    have hAfter :=
      magnitude_lt_of_lt hFraction (Nat.lt_succ_self m)
        (hBetween.trans hb).le
    have hNearer :=
      abs_sub_lt_of_between hEqual hAfter
        (magnitude_lt_of_lt hFraction hBetween hb.le)
    exact absurd (hNearA (m + 1) (hBetween.trans hb)).1
      (not_le.mpr hNearer)

/- A number that the format can hold is rounded to itself. -/
theorem rounds_self
    {x : ℚ}
    {bits : Nat}
    (hx : (F.value bits).rational = some x)
    (hSign :
      (bits / F.signBit % 2 == 1) = decide (x < 0)) :
    F.Rounds x bits := by
  refine ⟨x, hx, hSign, ?_⟩
  intro other z _
  rw [sub_self, abs_zero]
  refine ⟨abs_nonneg _, fun h => .inl ?_⟩
  exact (sub_eq_zero.mp (abs_eq_zero.mp h.symm)).symm

/- An exact number is rounded to one bit pattern alone. -/
theorem Rounds.unique
    (hFraction : 0 < F.fractionBits)
    {x : ℚ}
    {a b : Nat}
    (ha : a < 2 * F.signBit)
    (hb : b < 2 * F.signBit)
    (hA : F.Rounds x a)
    (hB : F.Rounds x b) :
    a = b := by
  have hMagnitude : a % F.signBit = b % F.signBit :=
    Nat.le_antisymm
      (Nat.le_of_not_lt (hB.not_lt hFraction hA))
      (Nat.le_of_not_lt (hA.not_lt hFraction hB))
  rcases hA with ⟨-, -, hSignA, -⟩
  rcases hB with ⟨-, -, hSignB, -⟩
  rw [← F.withSign_magnitude ha, ← F.withSign_magnitude hb,
    hMagnitude, hSignA, hSignB]

end Format

/- Single precision takes no more bits than a word has. -/
theorem single_bits_unique
    {x : ℚ}
    {a b : UInt32}
    (hA : single.Rounds x a.toNat)
    (hB : single.Rounds x b.toNat) :
    a = b := by
  have hWord : 2 * single.signBit = 2 ^ 32 := by decide
  apply UInt32.toNat_inj.mp
  apply Format.Rounds.unique (by decide) _ _ hA hB
  · rw [hWord]
    exact a.toNat_lt
  · rw [hWord]
    exact b.toNat_lt

end PostScript.Ieee
