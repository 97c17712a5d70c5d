import PostScript.Proofs.Numeric.Finite

/-
  This file shows that rounding gives the number of a
  floating-point format that is nearest to an exact number,
  and of two such numbers the one with an even significand.

  Key definitions include:
    * `Ieee.Value.rational`
    * `Ieee.Format.place`
    * `Ieee.Format.unclamped`
    * `Ieee.Format.Rounds`

  Main results:
    * `Ieee.roundHalfEven_error`
    * `Ieee.Format.dyadic_nearest`
    * `Ieee.Format.rounds_round`
-/

namespace PostScript.Ieee

------------------------------------------------------------
-- Exact Values
------------------------------------------------------------

/- The exact number that a finite value stands for. -/
def Value.rational : Value → Option ℚ
  | finite negative m e =>
      some ((signed negative m : ℚ) * (2 : ℚ) ^ e)
  | _ => none

@[simp] theorem Value.rational_finite
    (negative : Bool)
    (m : Nat)
    (e : Int) :
    (finite negative m e).rational =
      some ((signed negative m : ℚ) * (2 : ℚ) ^ e) :=
  rfl

/- Without its sign it is the significand at its place. -/
theorem abs_signed_mul
    (negative : Bool)
    (m : Nat)
    (e : Int) :
    |(Value.signed negative m : ℚ) * (2 : ℚ) ^ e| =
      dyadic m e := by
  have hPower : (0 : ℚ) < (2 : ℚ) ^ e :=
    zpow_pos (by norm_num) e
  have hSign : |(Value.signed negative m : ℚ)| = m := by
    cases negative <;> simp [Value.signed]
  rw [abs_mul, hSign, abs_of_pos hPower]
  rfl

------------------------------------------------------------
-- Whole Numbers
------------------------------------------------------------

/-
  A multiple of `u` within half a unit of `x` is a nearest
  one, and the only one unless it is half a unit away.
-/
theorem multiple_nearest
    {x u : ℚ}
    {a : Int}
    (hUnit : 0 < u)
    (hHalf : |x - a * u| ≤ u / 2)
    (k : Int) :
    |x - a * u| ≤ |x - k * u| ∧
      (|x - a * u| = |x - k * u| →
        k = a ∨ |x - a * u| = u / 2) := by
  by_cases hSame : k = a
  · subst hSame
    exact ⟨le_refl _, fun _ => .inl rfl⟩
  · have hStep : (1 : ℚ) ≤ |((k - a : Int) : ℚ)| := by
      exact_mod_cast Int.one_le_abs (sub_ne_zero.mpr hSame)
    have hApart : u ≤ |x - a * u| + |x - k * u| := by
      calc u ≤ |((k - a : Int) : ℚ)| * u :=
              le_mul_of_one_le_left hUnit.le hStep
        _ = |(x - a * u) - (x - k * u)| := by
              rw [← abs_of_pos hUnit, ← abs_mul,
                abs_of_pos hUnit]
              congr 1
              push_cast
              ring
        _ ≤ |x - a * u| + |x - k * u| := abs_sub _ _
    constructor
    · linarith
    · intro hEqual
      right
      linarith

/-
  Rounding a quotient goes no further than half a unit, and
  half a unit only to an even number.
-/
theorem roundHalfEven_error
    (num : Nat)
    {den : Nat}
    (hDen : 0 < den) :
    |(num : ℚ) / den - (roundHalfEven num den : Int)| ≤ 1 / 2 ∧
      (|(num : ℚ) / den - (roundHalfEven num den : Int)| =
          1 / 2 →
        roundHalfEven num den % 2 = 0) := by
  have hDenCast : (0 : ℚ) < den := by exact_mod_cast hDen
  have hSplit :
      (num : ℚ) / den =
        (num / den : Nat) + ((num % den : Nat) : ℚ) / den := by
    rw [eq_comm, ← sub_eq_zero]
    field_simp
    have hNat := Nat.div_add_mod num den
    have hCast :
        (den : ℚ) * (num / den : Nat) + (num % den : Nat) =
          num := by
      exact_mod_cast hNat
    linarith
  unfold roundHalfEven
  dsimp only
  rw [hSplit]
  set q := num / den
  set r := num % den
  have hNonneg : (0 : ℚ) ≤ (r : ℚ) / den := by positivity
  have hBelow : (r : ℚ) / den < 1 := by
    rw [div_lt_one hDenCast]
    exact_mod_cast Nat.mod_lt num hDen
  split
  next hLess =>
    have hHalf : (r : ℚ) / den < 1 / 2 := by
      rw [div_lt_iff₀ hDenCast]
      have hCast : (2 : ℚ) * r < den := by exact_mod_cast hLess
      linarith
    have hError :
        (q : ℚ) + (r : ℚ) / den - ((q : Nat) : Int) =
          (r : ℚ) / den := by
      push_cast
      ring
    rw [hError, abs_of_nonneg hNonneg]
    exact ⟨hHalf.le, fun h => absurd h hHalf.ne⟩
  next hLess =>
    split
    next hMore =>
      have hHalf : 1 / 2 < (r : ℚ) / den := by
        rw [lt_div_iff₀ hDenCast]
        have hCast : (den : ℚ) < 2 * r := by
          exact_mod_cast hMore
        linarith
      have hError :
          (q : ℚ) + (r : ℚ) / den - ((q + 1 : Nat) : Int) =
            -(1 - (r : ℚ) / den) := by
        push_cast
        ring
      rw [hError, abs_neg, abs_of_nonneg (by linarith)]
      constructor
      · linarith
      · intro h
        linarith
    next hMore =>
      have hTie : 2 * r = den := by omega
      have hHalf : (r : ℚ) / den = 1 / 2 := by
        rw [div_eq_iff hDenCast.ne']
        have hCast : (2 : ℚ) * r = den := by
          exact_mod_cast hTie
        linarith
      refine ⟨?_, fun _ => by omega⟩
      rw [hHalf]
      rcases Nat.mod_two_eq_zero_or_one q with hEven | hOdd
      · rw [hEven]
        norm_num
      · rw [hOdd]
        norm_num

/- Nor does it go below a whole number under the quotient. -/
theorem le_roundHalfEven
    {num den k : Nat}
    (hDen : 0 < den)
    (h : k * den ≤ num) :
    k ≤ roundHalfEven num den := by
  have hQuotient : k ≤ num / den :=
    (Nat.le_div_iff_mul_le hDen).mpr h
  unfold roundHalfEven
  dsimp only
  split
  · exact hQuotient
  · split <;> omega

------------------------------------------------------------
-- Places
------------------------------------------------------------

namespace Format

variable (F : Format)

/- The place of the last bit that rounding keeps. -/
def place
    (x : ℚ) : Int :=
  max F.leastExponent (Int.log 2 x - F.fractionBits)

/- Above the least place the leading bit counts at most this. -/
theorem zpow_place_le
    {x : ℚ}
    (hx : 0 < x)
    (hAbove : F.leastExponent < F.place x) :
    (2 : ℚ) ^ ((F.fractionBits : Int) + F.place x) ≤ x := by
  have hSame :
      (F.fractionBits : Int) + F.place x = Int.log 2 x := by
    unfold place at hAbove ⊢
    omega
  rw [hSame]
  exact_mod_cast
    Int.zpow_log_le_self (b := 2) (by norm_num) hx

/- In units of a place a quotient is this quotient. -/
theorem quotient_place
    (num den : Nat)
    (p : Int) :
    ((num * power 2 (-p).toNat : Nat) : ℚ) /
        ((den * power 2 p.toNat : Nat) : ℚ) =
      (num : ℚ) / den / (2 : ℚ) ^ p := by
  rw [← power_div_power p]
  push_cast
  rw [div_div_div_eq]

/-
  The significand that rounding gives fits its field or is the
  next power of two, and fills it above the least place.
-/
theorem roundHalfEven_place
    {num den : Nat}
    (hNum : 0 < num)
    (hDen : 0 < den)
    {p : Int}
    (hPlace : p = F.place ((num : ℚ) / den)) :
    roundHalfEven (num * power 2 (-p).toNat)
        (den * power 2 p.toNat) ≤ power 2 (F.fractionBits + 1) ∧
      (F.leastExponent < p →
        power 2 F.fractionBits ≤
          roundHalfEven (num * power 2 (-p).toNat)
            (den * power 2 p.toNat)) := by
  have hScaled : 0 < den * power 2 p.toNat :=
    Nat.mul_pos hDen (power_two_pos _)
  have hx : 0 < (num : ℚ) / den := by
    have hNumCast : (0 : ℚ) < num := by exact_mod_cast hNum
    have hDenCast : (0 : ℚ) < den := by exact_mod_cast hDen
    positivity
  have hTwo : (2 : ℚ) ≠ 0 := by norm_num
  constructor
  · apply roundHalfEven_le hScaled
    apply F.scaled_lt hDen
    rw [hPlace]
    exact le_max_right _ _
  · intro hAbove
    apply le_roundHalfEven hScaled
    have hLow :
        (2 : ℚ) ^ ((F.fractionBits : Int) + p) ≤
          (num : ℚ) / den := by
      rw [hPlace] at hAbove ⊢
      exact F.zpow_place_le hx hAbove
    have hUnits :
        (2 : ℚ) ^ (F.fractionBits : Int) ≤
          ((num * power 2 (-p).toNat : Nat) : ℚ) /
            ((den * power 2 p.toNat : Nat) : ℚ) := by
      rw [quotient_place, le_div_iff₀ (zpow_pos (by norm_num) _),
        ← zpow_add₀ hTwo]
      exact hLow
    rw [le_div_iff₀ (by exact_mod_cast hScaled),
      zpow_natCast, ← cast_power] at hUnits
    exact_mod_cast hUnits

/- The leading bit of a significand counts an even number. -/
theorem unit_even
    (hFraction : 0 < F.fractionBits) :
    power 2 F.fractionBits % 2 = 0 := by
  rcases Nat.exists_eq_add_of_lt hFraction with ⟨k, hk⟩
  rw [hk, Nat.zero_add, power_succ]
  exact Nat.mul_mod_left _ _

/-
  The bits of a significand at a place stand for that
  significand at that place, also when it has reached the next
  power of two.
-/
theorem dyadic_of_place
    {p : Int}
    {m bits : Nat}
    (hFraction : 0 < F.fractionBits)
    (hLeast : F.leastExponent ≤ p)
    (hHigh : m ≤ power 2 (F.fractionBits + 1))
    (hLow : F.leastExponent < p → power 2 F.fractionBits ≤ m)
    (hBits :
      bits =
        (p - F.leastExponent).toNat * power 2 F.fractionBits + m)
    (hBelow : bits ≤ F.infinityBits) :
    dyadic (F.significand bits) (F.exponent bits) =
        dyadic m p ∧
      (m % 2 = 0 → F.significand bits % 2 = 0) := by
  have hUnit : 0 < power 2 F.fractionBits := power_two_pos _
  have hField :
      F.exponentField bits = bits / power 2 F.fractionBits :=
    F.exponentField_eq hBelow
  have hEven := F.unit_even hFraction
  rw [power_succ] at hHigh
  unfold significand exponent
  rw [hField]
  set unit := power 2 F.fractionBits
  by_cases hSmall : m < unit
  · -- Below the leading bit the place is the least one.
    have hp : p = F.leastExponent := by
      by_contra hNot
      exact absurd (hLow (by omega)) (by omega)
    have hSame : bits = m := by
      rw [hBits, hp]
      simp
    rw [hSame, Nat.div_eq_of_lt hSmall, if_pos rfl,
      Nat.mod_eq_of_lt hSmall, hp]
    simp
  · by_cases hNext : m < 2 * unit
    · obtain ⟨f, hf⟩ := Nat.exists_eq_add_of_le
        (Nat.le_of_not_lt hSmall)
      have hLess : f < unit := by omega
      have hSame :
          bits =
            unit * ((p - F.leastExponent).toNat + 1) + f := by
        rw [hBits, hf]
        ring
      have hQuotient :
          bits / unit = (p - F.leastExponent).toNat + 1 := by
        rw [hSame, Nat.mul_add_div hUnit,
          Nat.div_eq_of_lt hLess, Nat.add_zero]
      have hRest : bits % unit = f := by
        rw [hSame, Nat.mul_add_mod, Nat.mod_eq_of_lt hLess]
      have hExponent :
          F.leastExponent +
              (((p - F.leastExponent).toNat + 1 - 1 : Nat) :
                Int) = p := by
        omega
      rw [hQuotient, hRest, if_neg (Nat.succ_ne_zero _),
        hExponent, ← hf]
      exact ⟨rfl, id⟩
    · have hm : m = 2 * unit := by omega
      have hSame :
          bits = unit * ((p - F.leastExponent).toNat + 2) := by
        rw [hBits, hm]
        ring
      have hQuotient :
          bits / unit = (p - F.leastExponent).toNat + 2 := by
        rw [hSame, Nat.mul_div_cancel_left _ hUnit]
      have hRest : bits % unit = 0 := by
        rw [hSame, Nat.mul_mod_right]
      have hExponent :
          F.leastExponent +
              (((p - F.leastExponent).toNat + 2 - 1 : Nat) :
                Int) = p + 1 := by
        omega
      rw [hQuotient, hRest, if_neg (Nat.succ_ne_zero _),
        hExponent, hm, Nat.add_zero]
      refine ⟨?_, fun _ => hEven⟩
      unfold dyadic
      rw [zpow_add_one₀ (by norm_num : (2 : ℚ) ≠ 0)]
      push_cast
      ring

/-
  The bits that a fraction would be rounded to if the exponent
  had no end.
-/
def unclamped
    (num den : Nat) : Nat :=
  if num = 0 then
    0
  else
    let place :=
      max F.leastExponent
        (log2Quotient num den - F.fractionBits)
    (place - F.leastExponent).toNat *
        power 2 F.fractionBits +
      roundHalfEven
        (num * power 2 (-place).toNat)
        (den * power 2 place.toNat)

/- Rounding stops at infinity. -/
theorem nearest_eq_min
    (num den : Nat) :
    F.nearest num den =
      min F.infinityBits (F.unclamped num den) := by
  unfold nearest unclamped
  split
  · exact (Nat.min_eq_right (Nat.zero_le _)).symm
  · rfl

/- It does not stop below infinity. -/
theorem unclamped_le
    {num den : Nat}
    (hFinite : F.nearest num den < F.infinityBits) :
    F.unclamped num den ≤ F.infinityBits := by
  rw [nearest_eq_min] at hFinite
  omega

/- These bits hold the whole number of units of the place. -/
theorem unclamped_eq
    {num den : Nat}
    (hNum : 0 < num)
    (hDen : 0 < den)
    {p : Int}
    (hPlace : p = F.place ((num : ℚ) / den))
    {m : Nat}
    (hm :
      m =
        roundHalfEven (num * power 2 (-p).toNat)
          (den * power 2 p.toNat)) :
    F.unclamped num den =
      (p - F.leastExponent).toNat * power 2 F.fractionBits +
        m := by
  unfold unclamped
  rw [if_neg (Nat.pos_iff_ne_zero.mp hNum),
    log2Quotient_eq hNum hDen, hm, hPlace]
  rfl

/-
  What a fraction is rounded to is the whole number of units
  of its place that is nearest to it.
-/
theorem dyadic_nearest
    {num den : Nat}
    (hFraction : 0 < F.fractionBits)
    (hNum : 0 < num)
    (hDen : 0 < den)
    {p : Int}
    (hPlace : p = F.place ((num : ℚ) / den))
    {m : Nat}
    (hm :
      m =
        roundHalfEven (num * power 2 (-p).toNat)
          (den * power 2 p.toNat))
    (hClamped : F.unclamped num den ≤ F.infinityBits) :
    dyadic (F.significand (F.nearest num den))
          (F.exponent (F.nearest num den)) =
        dyadic m p ∧
      (m % 2 = 0 →
        F.significand (F.nearest num den) % 2 = 0) := by
  rcases F.roundHalfEven_place hNum hDen hPlace with
    ⟨hHigh, hLow⟩
  rw [← hm] at hHigh hLow
  have hBits : F.nearest num den = F.unclamped num den := by
    rw [nearest_eq_min, Nat.min_eq_right hClamped]
  rw [hBits]
  refine F.dyadic_of_place hFraction ?_ hHigh hLow
    (F.unclamped_eq hNum hDen hPlace hm) hClamped
  rw [hPlace]
  exact le_max_left _ _

------------------------------------------------------------
-- Nearest Numbers
------------------------------------------------------------

/-
  A number that the format can hold is a multiple of a place,
  or lies below all significands that fill their field there.
-/
theorem multiple_or_lt
    {bits : Nat}
    {z : ℚ}
    (hz : |z| = dyadic (F.significand bits) (F.exponent bits))
    {p : Int}
    (hPlace : F.leastExponent ≤ p) :
    (∃ k : Int, z = k * (2 : ℚ) ^ p) ∨
      (F.leastExponent < p ∧
        |z| < (2 : ℚ) ^ ((F.fractionBits : Int) + p)) := by
  have hTwo : (2 : ℚ) ≠ 0 := by norm_num
  by_cases hBelow : F.exponent bits < p
  · right
    have hLeast : F.leastExponent ≤ F.exponent bits := by
      unfold exponent
      omega
    refine ⟨by omega, ?_⟩
    have hCast :
        (F.significand bits : ℚ) <
          (2 : ℚ) ^ ((F.fractionBits : Int) + 1) := by
      have hNat := F.significand_lt bits
      rw [show (F.fractionBits : Int) + 1 =
          ((F.fractionBits + 1 : Nat) : Int) by push_cast; rfl,
        zpow_natCast, ← cast_power]
      exact_mod_cast hNat
    rw [hz]
    calc dyadic (F.significand bits) (F.exponent bits)
        < (2 : ℚ) ^ ((F.fractionBits : Int) + 1) *
            (2 : ℚ) ^ F.exponent bits :=
          mul_lt_mul_of_pos_right hCast
            (zpow_pos (by norm_num) _)
      _ = (2 : ℚ) ^
            ((F.fractionBits : Int) + 1 + F.exponent bits) := by
          rw [zpow_add₀ hTwo _ (F.exponent bits)]
      _ ≤ (2 : ℚ) ^ ((F.fractionBits : Int) + p) :=
          zpow_le_zpow_right₀ (by norm_num) (by omega)
  · left
    obtain ⟨k, hk⟩ := Int.le.dest (Int.not_lt.mp hBelow)
    have hMagnitude :
        |z| = ((F.significand bits * 2 ^ k : Nat) : ℚ) *
          (2 : ℚ) ^ p := by
      rw [hz, ← hk]
      unfold dyadic
      rw [zpow_add₀ hTwo, zpow_natCast]
      push_cast
      ring
    rcases abs_choice z with hSign | hSign
    · refine ⟨(F.significand bits * 2 ^ k : Nat), ?_⟩
      rw [← hSign, hMagnitude]
      norm_cast
    · refine ⟨-(F.significand bits * 2 ^ k : Nat), ?_⟩
      rw [← neg_neg z, ← hSign, hMagnitude]
      push_cast
      ring

/-
  No number that the format can hold is nearer to a fraction
  than what the fraction is rounded to. If another one is as
  near, the significand is even.
-/
theorem nearest_optimal
    {num den : Nat}
    (hFraction : 0 < F.fractionBits)
    (hDen : 0 < den)
    (hClamped : F.unclamped num den ≤ F.infinityBits)
    {y : ℚ}
    (hy :
      y = dyadic (F.significand (F.nearest num den))
        (F.exponent (F.nearest num den)))
    {bits : Nat}
    {z : ℚ}
    (hz : |z| = dyadic (F.significand bits) (F.exponent bits)) :
    |(num : ℚ) / den - y| ≤ |(num : ℚ) / den - z| ∧
      (|(num : ℚ) / den - y| = |(num : ℚ) / den - z| →
        z = y ∨ F.significand (F.nearest num den) % 2 = 0) := by
  rcases Nat.eq_zero_or_pos num with hZero | hNum
  · subst hZero
    have hNone : y = 0 := by
      rw [hy]
      simp [nearest, significand, exponentField, dyadic]
    rw [hNone, Nat.cast_zero, zero_div, sub_zero, abs_zero,
      zero_sub, abs_neg]
    refine ⟨abs_nonneg z, fun h => .inl ?_⟩
    exact abs_eq_zero.mp h.symm
  · set x : ℚ := (num : ℚ) / den with hx
    obtain ⟨p, hp⟩ : ∃ p, p = F.place x := ⟨_, rfl⟩
    obtain ⟨m, hm⟩ :
        ∃ m, m = roundHalfEven (num * power 2 (-p).toNat)
          (den * power 2 p.toNat) := ⟨_, rfl⟩
    rcases F.dyadic_nearest hFraction hNum hDen hp hm hClamped
      with ⟨hDyadic, hEven⟩
    have hUnit : (0 : ℚ) < (2 : ℚ) ^ p :=
      zpow_pos (by norm_num) p
    have hyUnits : y = ((m : Int) : ℚ) * (2 : ℚ) ^ p := by
      rw [hy, hDyadic]
      rfl
    have hUnits :
        |x - y| =
          |x / (2 : ℚ) ^ p - ((m : Int) : ℚ)| *
            (2 : ℚ) ^ p := by
      rw [hyUnits]
      nth_rewrite 3 [← abs_of_pos hUnit]
      rw [← abs_mul, sub_mul, div_mul_cancel₀ _ hUnit.ne']
    have hError :=
      roundHalfEven_error (num * power 2 (-p).toNat)
        (Nat.mul_pos hDen (power_two_pos p.toNat))
    rw [quotient_place, ← hm, ← hx] at hError
    have hHalf : |x - y| ≤ (2 : ℚ) ^ p / 2 := by
      rw [hUnits]
      nlinarith [hError.1]
    have hTie : |x - y| = (2 : ℚ) ^ p / 2 → m % 2 = 0 := by
      intro h
      apply hError.2
      rw [hUnits] at h
      have hCancel :
          |x / (2 : ℚ) ^ p - ((m : Int) : ℚ)| * (2 : ℚ) ^ p =
            1 / 2 * (2 : ℚ) ^ p := by
        linarith
      exact mul_right_cancel₀ hUnit.ne' hCancel
    rw [hyUnits] at hHalf hTie ⊢
    have hLeast : F.leastExponent ≤ p := by
      rw [hp]
      exact le_max_left _ _
    rcases F.multiple_or_lt hz hLeast with
      ⟨k, hk⟩ | ⟨hAbove, hBelow⟩
    · rcases multiple_nearest hUnit hHalf k with ⟨hLe, hSame⟩
      rw [hk]
      refine ⟨hLe, fun h => ?_⟩
      rcases hSame h with hk | hHalfway
      · left
        rw [hk]
      · right
        exact hEven (hTie hHalfway)
    · -- The least number that fills its field is between.
      have hTwo : (2 : ℚ) ≠ 0 := by norm_num
      have hFull :
          (2 : ℚ) ^ ((F.fractionBits : Int) + p) =
            ((power 2 F.fractionBits : Nat) : Int) *
              (2 : ℚ) ^ p := by
        rw [zpow_add₀ hTwo, zpow_natCast, ← cast_power]
        norm_cast
      have hLog :
          (2 : ℚ) ^ ((F.fractionBits : Int) + p) ≤ x := by
        have hxPos : 0 < x := by
          have hNumCast : (0 : ℚ) < num := by
            exact_mod_cast hNum
          have hDenCast : (0 : ℚ) < den := by
            exact_mod_cast hDen
          positivity
        rw [hp] at hAbove ⊢
        exact F.zpow_place_le hxPos hAbove
      have hNearer :=
        (multiple_nearest hUnit hHalf
          (power 2 F.fractionBits : Nat)).1
      rw [← hFull, abs_of_nonneg (sub_nonneg.mpr hLog)]
        at hNearer
      have hFarther :
          x - (2 : ℚ) ^ ((F.fractionBits : Int) + p) <
            |x - z| := by
        have hSelf := le_abs_self z
        have hDistance := le_abs_self (x - z)
        linarith
      have hStrict := hNearer.trans_lt hFarther
      exact ⟨hStrict.le, fun h => absurd h hStrict.ne⟩

/-
  Bits stand for the number that is nearest to `x` among all
  that the format can hold. Where two are nearest, it is the
  one with an even significand. Its sign is that of `x`, also
  where it is zero.
-/
def Rounds
    (x : ℚ)
    (bits : Nat) : Prop :=
  ∃ y, (F.value bits).rational = some y ∧
    (bits / F.signBit % 2 == 1) = decide (x < 0) ∧
    ∀ other z, (F.value other).rational = some z →
      |x - y| ≤ |x - z| ∧
        (|x - y| = |x - z| →
          z = y ∨ F.significand bits % 2 = 0)

/-
  What has an exact value is the significand of some bits at
  their place, with their sign.
-/
theorem rational_eq_some
    {bits : Nat}
    {z : ℚ}
    (hz : (F.value bits).rational = some z) :
    F.exponentField bits ≠ F.topExponent ∧
      z =
        (Value.signed (bits / F.signBit % 2 == 1)
            (F.significand bits) : ℚ) *
          (2 : ℚ) ^ F.exponent bits := by
  by_cases hTop : F.exponentField bits = F.topExponent
  · unfold value at hz
    dsimp only at hz
    rw [if_pos hTop] at hz
    split at hz <;> contradiction
  · rw [F.value_eq bits hTop] at hz
    cases hz
    exact ⟨hTop, rfl⟩

/- Without its sign it is a dyadic number. -/
theorem abs_rational
    {bits : Nat}
    {z : ℚ}
    (hz : (F.value bits).rational = some z) :
    |z| = dyadic (F.significand bits) (F.exponent bits) := by
  rw [(F.rational_eq_some hz).2]
  exact abs_signed_mul _ _ _

/-
  A finite value is rounded to the nearest number of the
  format, unless it is rounded to infinity. There is no
  negative zero among exact numbers.
-/
theorem rounds_round
    {negative : Bool}
    {m : Nat}
    {e : Int}
    (hFraction : 0 < F.fractionBits)
    (hSign : m = 0 → negative = false)
    (hFinite :
      F.nearest (m * power 2 e.toNat) (power 2 (-e).toNat) <
        F.infinityBits) :
    F.Rounds ((Value.signed negative m : ℚ) * (2 : ℚ) ^ e)
      (F.round (.finite negative m e)) := by
  have hDen : 0 < power 2 (-e).toNat := power_two_pos _
  have hPower : (0 : ℚ) < (2 : ℚ) ^ e :=
    zpow_pos (by norm_num) e
  have hQuotient := dyadic_eq_quotient m e
  unfold round
  dsimp only
  generalize hNum : m * power 2 e.toNat = num at *
  generalize power 2 (-e).toNat = den at *
  have hLess := hFinite.trans F.infinityBits_lt
  have hSame :
      F.significand (F.withSign negative (F.nearest num den)) =
        F.significand (F.nearest num den) := by
    rw [← F.significand_magnitude (F.withSign negative _),
      F.withSign_mod negative hLess]
  have hValue :
      (F.value (F.withSign negative
          (F.nearest num den))).rational =
        some ((Value.signed negative
            (F.significand (F.nearest num den)) : ℚ) *
          (2 : ℚ) ^ F.exponent (F.nearest num den)) := by
    rw [F.value_withSign negative hFinite]
    rfl
  refine ⟨_, hValue, ?_, ?_⟩
  · rw [F.sign_withSign negative hLess]
    cases negative with
    | false =>
        have hNonneg : (0 : ℚ) ≤ m * (2 : ℚ) ^ e := by
          positivity
        simp [Value.signed, hNonneg]
    | true =>
        have hm : m ≠ 0 := fun h => by simpa using hSign h
        have hCast : (0 : ℚ) < m := by
          exact_mod_cast Nat.pos_of_ne_zero hm
        have hNegative : -(m : ℚ) * (2 : ℚ) ^ e < 0 := by
          nlinarith [mul_pos hCast hPower]
        simpa [Value.signed] using hNegative
  · intro other z hz
    have hMagnitude := F.abs_rational hz
    rw [hSame]
    cases negative with
    | false =>
        have hx :
            (Value.signed false m : ℚ) * (2 : ℚ) ^ e =
              (num : ℚ) / den := by
          rw [← hQuotient]
          rfl
        rw [hx]
        exact F.nearest_optimal hFraction hDen
          (F.unclamped_le hFinite) rfl hMagnitude
    | true =>
        -- Both numbers are taken to the other side of zero.
        have hOther : |(-z)| = _ :=
          (abs_neg z).trans hMagnitude
        have hOptimal :=
          F.nearest_optimal hFraction hDen
            (F.unclamped_le hFinite) rfl hOther
        have hx :
            (Value.signed true m : ℚ) * (2 : ℚ) ^ e =
              -((num : ℚ) / den) := by
          rw [← hQuotient]
          simp [Value.signed, dyadic]
        have hFlip :
            ∀ v w : ℚ, |-v - w| = |v - -w| := by
          intro v w
          rw [← abs_neg]
          congr 1
          ring
        have hNegated :
            (Value.signed true
                (F.significand (F.nearest num den)) : ℚ) *
                (2 : ℚ) ^ F.exponent (F.nearest num den) =
              -dyadic (F.significand (F.nearest num den))
                (F.exponent (F.nearest num den)) := by
          simp [Value.signed, dyadic]
        rw [hx, hFlip, hFlip, hNegated, neg_neg]
        refine ⟨hOptimal.1, fun h => ?_⟩
        rcases hOptimal.2 h with hz | hEven
        · left
          rw [← hz, neg_neg]
        · exact .inr hEven

end Format

end PostScript.Ieee
