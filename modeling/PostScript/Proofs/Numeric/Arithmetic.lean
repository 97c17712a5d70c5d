import PostScript.Numeric.Arithmetic
import PostScript.Proofs.Numeric.Exact
import PostScript.Proofs.Numeric.Held

/-
  This file shows that arithmetic in double precision is exact
  where double precision holds the exact result.

  Key definitions include:
    * `Ieee.FitsTo`
    * `Ieee.Fits`

  Main results:
    * `Ieee.Value.rational_add`
    * `Ieee.Value.rational_mul`
    * `Ieee.Value.rational_nearestWhole`
    * `Ieee.Value.isLess_iff`
    * `Ieee.rational_nearest`
    * `Ieee.rational_double_add`
    * `Ieee.rational_double_sub`
    * `Ieee.rational_double_mul`
    * `Ieee.rational_double_div`
    * `Ieee.rational_double_nearestWhole`
-/

namespace PostScript.Ieee

------------------------------------------------------------
-- Exact Results
------------------------------------------------------------

namespace Value

/- What has an exact value is a signed significand. -/
theorem exists_finite
    {v : Value}
    {x : ℚ}
    (hv : v.rational = some x) :
    ∃ negative m e,
      v = finite negative m e ∧
        x = (signed negative m : ℚ) * (2 : ℚ) ^ e := by
  cases v with
  | nan | infinite => contradiction
  | finite negative m e =>
      cases hv
      exact ⟨negative, m, e, rfl, rfl⟩

/- A sign is a factor. -/
theorem signed_mul
    (negative : Bool)
    (m : Nat)
    (e : Int) :
    (signed negative m : ℚ) * (2 : ℚ) ^ e =
      (signed negative 1 : ℚ) * dyadic m e := by
  cases negative <;> simp [signed, dyadic]

/- The signs of two factors are multiplied. -/
theorem signed_bne
    (n n' : Bool)
    (m m' : Nat) :
    signed (n != n') (m * m') = signed n m * signed n' m' := by
  cases n <;> cases n' <;> simp [signed]

/- The sign of a sum is that of both or that of the sum. -/
theorem signed_sum
    (n n' : Bool)
    (m m' : Nat) :
    signed (signed n m + signed n' m' < 0 || n && n')
        (signed n m + signed n' m').natAbs =
      signed n m + signed n' m' := by
  generalize hSum : signed n m + signed n' m' = sum
  by_cases hNegative : sum < 0
  · rw [decide_eq_true hNegative, Bool.true_or]
    simp only [signed, if_true]
    omega
  · rw [decide_eq_false hNegative, Bool.false_or]
    cases hBoth : n && n' with
    | false =>
        simp only [signed, Bool.false_eq_true, if_false]
        omega
    | true =>
        -- Neither of them is positive, so that both are zero.
        rw [Bool.and_eq_true] at hBoth
        rw [hBoth.1, hBoth.2] at hSum
        simp only [signed, if_true] at hSum ⊢
        omega

/- The other sign is the opposite number. -/
theorem rational_negate
    {v : Value}
    {x : ℚ}
    (hv : v.rational = some x) :
    v.negate.rational = some (-x) := by
  rcases exists_finite hv with ⟨negative, m, e, rfl, rfl⟩
  cases negative <;> simp [negate, signed]

/- A lower place needs a greater significand. -/
theorem signed_shift
    (negative : Bool)
    (m : Nat)
    {e low : Int}
    (h : low ≤ e) :
    (signed negative (m * power 2 (e - low).toNat) : ℚ) *
        (2 : ℚ) ^ low =
      (signed negative m : ℚ) * (2 : ℚ) ^ e := by
  have hSplit :
      (2 : ℚ) ^ e =
        (power 2 (e - low).toNat : Nat) * (2 : ℚ) ^ low := by
    rw [cast_power, ← zpow_natCast,
      Int.toNat_of_nonneg (by omega),
      ← zpow_add₀ (by norm_num : (2 : ℚ) ≠ 0),
      sub_add_cancel]
  rw [signed_mul, signed_mul]
  unfold dyadic
  rw [hSplit]
  push_cast
  ring

/- A sum of numbers is their sum. -/
theorem rational_add
    {u v : Value}
    {x y : ℚ}
    (hu : u.rational = some x)
    (hv : v.rational = some y) :
    (u.add v).rational = some (x + y) := by
  rcases exists_finite hu with ⟨n, m, e, rfl, rfl⟩
  rcases exists_finite hv with ⟨n', m', e', rfl, rfl⟩
  rw [add, rational_finite, signed_sum, Int.cast_add, add_mul,
    signed_shift n m (min_le_left e e'),
    signed_shift n' m' (min_le_right e e')]

/- A product of numbers is their product. -/
theorem rational_mul
    {u v : Value}
    {x y : ℚ}
    (hu : u.rational = some x)
    (hv : v.rational = some y) :
    (u.mul v).rational = some (x * y) := by
  rcases exists_finite hu with ⟨n, m, e, rfl, rfl⟩
  rcases exists_finite hv with ⟨n', m', e', rfl, rfl⟩
  rw [mul, rational_finite, signed_bne,
    zpow_add₀ (by norm_num : (2 : ℚ) ≠ 0)]
  push_cast
  congr 1
  ring

/- The whole number that is nearest to a number. -/
theorem wholeAway_eq
    {v : Value}
    {x : ℚ}
    (hv : v.rational = some x) :
    v.wholeAway = some (roundAway x) := by
  rcases exists_finite hv with ⟨negative, m, e, rfl, rfl⟩
  rw [wholeAway, roundHalfAway_eq]

/- Nothing is rounded to nothing. -/
theorem roundHalfUp_zero
    {den : Nat}
    (hDen : 0 < den) :
    roundHalfUp 0 den = 0 := by
  unfold roundHalfUp
  exact Nat.div_eq_of_lt (by omega)

/- As a value it is the same number. -/
theorem rational_nearestWhole
    {v : Value}
    {x : ℚ}
    (hv : v.rational = some x) :
    v.nearestWhole.rational = some (roundAway x : ℚ) := by
  rcases exists_finite hv with ⟨negative, m, e, rfl, rfl⟩
  have hAbs : (signed negative m).natAbs = m := by
    cases negative <;> simp [signed]
  rw [nearestWhole, rational_finite, zpow_zero, mul_one,
    ← roundHalfAway_eq]
  unfold roundHalfAway
  rw [hAbs]
  rcases Nat.eq_zero_or_pos m with rfl | hm
  · -- The sign of zero makes no difference.
    rw [Nat.zero_mul, roundHalfUp_zero (power_two_pos _)]
    cases negative <;> rfl
  · have hSign : decide (signed negative m < 0) = negative := by
      cases negative <;> simp [signed, hm]
    rw [hSign]

/- A number is less than another one where its value is. -/
theorem isLess_iff
    {u v : Value}
    {x y : ℚ}
    (hu : u.rational = some x)
    (hv : v.rational = some y) :
    u.isLess v = true ↔ x < y := by
  rcases exists_finite hu with ⟨n, m, e, rfl, rfl⟩
  rcases exists_finite hv with ⟨n', m', e', rfl, rfl⟩
  have hPower : (0 : ℚ) < (2 : ℚ) ^ min e e' :=
    zpow_pos (by norm_num) _
  rw [isLess, decide_eq_true_iff,
    ← signed_shift n m (min_le_left e e'),
    ← signed_shift n' m' (min_le_right e e'),
    mul_lt_mul_iff_left₀ hPower, Int.cast_lt]

/- The fraction of a whole number is cut without loss. -/
theorem truncate_eq
    {v : Value}
    {n : Int}
    (hv : v.rational = some (n : ℚ)) :
    v.truncate = some n := by
  rcases exists_finite hv with ⟨negative, m, e, rfl, hn⟩
  have hMagnitude : dyadic m e = (n.natAbs : ℚ) := by
    rw [Nat.cast_natAbs, Int.cast_abs, hn, abs_signed_mul]
  have hSigned : signed negative n.natAbs = n := by
    have hFactor :
        (signed negative n.natAbs : ℚ) =
          (signed negative 1 : ℚ) * n.natAbs := by
      cases negative <;> simp [signed]
    rw [signed_mul, hMagnitude, ← hFactor] at hn
    exact_mod_cast hn.symm
  have hDen : (power 2 (-e).toNat : ℚ) ≠ 0 := by
    exact_mod_cast (power_two_pos _).ne'
  rw [dyadic_eq_quotient, div_eq_iff hDen] at hMagnitude
  have hWhole :
      m * power 2 e.toNat =
        n.natAbs * power 2 (-e).toNat := by
    exact_mod_cast hMagnitude
  rw [truncate, hWhole, Nat.mul_div_cancel _ (power_two_pos _),
    hSigned]

end Value

------------------------------------------------------------
-- Double Precision
------------------------------------------------------------

/-
  A whole number of up to 53 bits at a place that is far from
  the lower end of double precision and not above `top`.
-/
def FitsTo
    (top : Int)
    (x : ℚ) : Prop :=
  ∃ n e : Int, x = n * (2 : ℚ) ^ e ∧
    n.natAbs < power 2 53 ∧ -1000 ≤ e ∧ e ≤ top

/-
  A number that double precision holds, as it is far from the
  upper end, too.
-/
def Fits
    (x : ℚ) : Prop :=
  FitsTo 900 x

/- There is room to multiply by powers of two. -/
theorem FitsTo.scale
    {top : Int}
    {x : ℚ}
    (h : FitsTo top x)
    {k : Nat}
    (hTop : top + k ≤ 900) :
    Fits (x * (2 : ℚ) ^ k) := by
  rcases h with ⟨n, e, rfl, hn, hLow, hHigh⟩
  refine ⟨n, e + k, ?_, hn, by omega, by omega⟩
  rw [zpow_add₀ (by norm_num), zpow_natCast, mul_assoc]

/- Also to do nothing. -/
theorem FitsTo.fits
    {top : Int}
    {x : ℚ}
    (h : FitsTo top x)
    (hTop : top ≤ 900) :
    Fits x := by
  rcases h with ⟨n, e, hx, hn, hLow, hHigh⟩
  exact ⟨n, e, hx, hn, hLow, hHigh.trans hTop⟩

/- Whole numbers of units are such numbers, -/
theorem fits_whole
    {n e : Int}
    (hn : n.natAbs < power 2 53)
    (hLow : -1000 ≤ e)
    (hHigh : e ≤ 900) :
    Fits ((n : ℚ) * (2 : ℚ) ^ e) :=
  ⟨n, e, rfl, hn, hLow, hHigh⟩

/- and so are integers. -/
theorem fits_int
    {n : Int}
    (hn : n.natAbs < power 2 53) :
    Fits n := by
  have hFits := fits_whole (e := 0) hn (by decide) (by decide)
  rw [zpow_zero, mul_one] at hFits
  exact hFits

/-
  A number that is held comes out of rounding its magnitude
  and putting its sign in front.
-/
theorem rational_nearest
    {negative : Bool}
    {num den : Nat}
    {x : ℚ}
    (hDen : 0 < den)
    (hSign : x = (Value.signed negative 1 : ℚ) * |x|)
    (hAbs : (num : ℚ) / den = |x|)
    (hFits : Fits x) :
    (double.value (double.withSign negative
        (double.nearest num den))).rational = some x := by
  rcases hFits with ⟨n, e, hx, hn, hLow, hHigh⟩
  have hMagnitude : |x| = dyadic n.natAbs e := by
    rw [hx, ← Value.signed_natAbs n, abs_signed_mul,
      Value.signed_natAbs n]
  rw [hMagnitude] at hAbs
  rcases double_nearest_held negative hDen hAbs hn hLow hHigh
    with ⟨m', e', hValue, hSame⟩
  rw [hValue, Value.rational_finite, Value.signed_mul, hSame,
    ← hMagnitude, ← hSign]

/- A finite value is its sign in front of its magnitude. -/
theorem Value.rational_sign
    {negative : Bool}
    {m : Nat}
    {e : Int}
    {x : ℚ}
    (hx : x = (signed negative m : ℚ) * (2 : ℚ) ^ e) :
    x = (signed negative 1 : ℚ) * |x| ∧ |x| = dyadic m e := by
  have hAbs : |x| = dyadic m e := by
    rw [hx, abs_signed_mul]
  refine ⟨?_, hAbs⟩
  rw [hAbs, hx, signed_mul]

/- A value that is held is rounded to itself. -/
theorem rational_round
    {v : Value}
    {x : ℚ}
    (hv : v.rational = some x)
    (hFits : Fits x) :
    (double.value (double.round v)).rational = some x := by
  rcases Value.exists_finite hv with ⟨negative, m, e, rfl, hx⟩
  rcases Value.rational_sign hx with ⟨hSign, hAbs⟩
  rw [dyadic_eq_quotient] at hAbs
  exact rational_nearest (power_two_pos _) hSign hAbs.symm hFits

/- Integers of up to 53 bits are held. -/
theorem rational_double_ofInt
    {n : Int}
    (hn : n.natAbs < power 2 53) :
    (double.value (double.ofInt n)).rational =
      some (n : ℚ) := by
  refine rational_round ?_ (fits_int hn)
  rw [Value.rational_finite, Value.signed_natAbs, zpow_zero,
    mul_one]

section

variable {a b : Nat}
variable {x y : ℚ}
variable (ha : (double.value a).rational = some x)
variable (hb : (double.value b).rational = some y)
include ha hb

/- A sum that is held is exact. -/
theorem rational_double_add
    (hFits : Fits (x + y)) :
    (double.value (double.add a b)).rational =
      some (x + y) :=
  rational_round (Value.rational_add ha hb) hFits

/- So is a difference, -/
theorem rational_double_sub
    (hFits : Fits (x - y)) :
    (double.value (double.sub a b)).rational =
      some (x - y) := by
  rw [sub_eq_add_neg] at hFits ⊢
  exact rational_round
    (Value.rational_add ha (Value.rational_negate hb)) hFits

/- a product, -/
theorem rational_double_mul
    (hFits : Fits (x * y)) :
    (double.value (double.mul a b)).rational =
      some (x * y) :=
  rational_round (Value.rational_mul ha hb) hFits

/- and a quotient. -/
theorem rational_double_div
    (hy : y ≠ 0)
    (hFits : Fits (x / y)) :
    (double.value (double.div a b)).rational =
      some (x / y) := by
  rcases Value.exists_finite ha with ⟨n, m, e, hA, hx⟩
  rcases Value.exists_finite hb with ⟨n', m', e', hB, hy'⟩
  rcases Value.rational_sign hx with ⟨hSign, hAbs⟩
  rcases Value.rational_sign hy' with ⟨hSign', hAbs'⟩
  have hm' : m' ≠ 0 := by
    rintro rfl
    apply hy
    rw [hy', Value.signed_mul]
    simp [dyadic]
  unfold Format.div
  rw [hA, hB]
  dsimp only
  rw [if_pos hm']
  refine rational_nearest
    (Nat.mul_pos (Nat.pos_of_ne_zero hm') (power_two_pos _))
    ?_ ?_ hFits
  · have hUnit :
        (Value.signed n' 1 : ℚ) * Value.signed n' 1 = 1 := by
      cases n' <;> simp [Value.signed]
    have hBoth :
        (Value.signed (n != n') 1 : ℚ) =
          Value.signed n 1 * Value.signed n' 1 := by
      exact_mod_cast Value.signed_bne n n' 1 1
    calc x / y
        = Value.signed n 1 * |x| /
            (Value.signed n' 1 * |y|) := by
          rw [← hSign, ← hSign']
      _ = Value.signed (n != n') 1 * |x / y| := by
          rw [hBoth, abs_div, mul_div_mul_comm,
            div_eq_mul_inv (Value.signed n 1 : ℚ),
            ← eq_inv_of_mul_eq_one_left hUnit]
  · have hBack : -(e - e') = e' - e := by omega
    have hPower := power_div_power (e - e')
    rw [hBack, zpow_sub₀ (by norm_num)] at hPower
    rw [abs_div, hAbs, hAbs']
    unfold dyadic
    push_cast
    rw [mul_div_mul_comm, hPower, mul_div_mul_comm]

end

/- Rounding to a whole number changes a number by a half. -/
theorem abs_roundAway_le
    (x : ℚ) :
    |(roundAway x : ℚ)| ≤ |x| + 1 / 2 := by
  have hHalf : |x - roundAway x| ≤ 1 / 2 := by
    unfold roundAway
    split
    · rw [Int.cast_neg, sub_neg_eq_add, ← abs_neg, neg_add,
        ← sub_eq_add_neg]
      exact abs_sub_round (-x)
    · exact abs_sub_round x
  calc |(roundAway x : ℚ)|
      = |x - (x - roundAway x)| := by rw [sub_sub_cancel]
    _ ≤ |x| + |x - roundAway x| := abs_sub _ _
    _ ≤ |x| + 1 / 2 := by gcongr

/- Rounding to a whole number keeps what is held held. -/
theorem fits_roundAway
    {x : ℚ}
    (h : Fits x) :
    Fits (roundAway x) := by
  rcases h with ⟨n, e, rfl, hn, hLow, hHigh⟩
  by_cases hWhole : 0 ≤ e
  · have hInt :
        (n : ℚ) * (2 : ℚ) ^ e =
          ((n * 2 ^ e.toNat : Int) : ℚ) := by
      push_cast
      rw [← zpow_natCast, Int.toNat_of_nonneg hWhole]
    rw [hInt, roundAway_intCast, ← hInt]
    exact fits_whole hn hLow hHigh
  · apply fits_int
    have hHalf : (2 : ℚ) ^ e ≤ 2⁻¹ := by
      rw [← zpow_neg_one]
      exact zpow_le_zpow_right₀ (by norm_num) (by omega)
    have hBound :
        2 * |(roundAway ((n : ℚ) * (2 : ℚ) ^ e) : ℚ)| ≤
          |(n : ℚ)| + 1 :=
      calc 2 * |(roundAway ((n : ℚ) * (2 : ℚ) ^ e) : ℚ)|
          ≤ 2 * (|(n : ℚ) * (2 : ℚ) ^ e| + 1 / 2) := by
            gcongr
            exact abs_roundAway_le _
        _ = 2 * (|(n : ℚ)| * (2 : ℚ) ^ e) + 1 := by
            rw [abs_mul, abs_zpow, abs_two]
            ring
        _ ≤ 2 * (|(n : ℚ)| * 2⁻¹) + 1 := by gcongr
        _ = |(n : ℚ)| + 1 := by ring
    have hInt :
        2 * |roundAway ((n : ℚ) * (2 : ℚ) ^ e)| ≤ |n| + 1 := by
      exact_mod_cast hBound
    rw [Int.abs_eq_natAbs, Int.abs_eq_natAbs] at hInt
    have hBits : power 2 53 = 9007199254740992 := rfl
    omega

/- The nearest whole number of a held number is exact. -/
theorem rational_double_nearestWhole
    {a : Nat}
    {x : ℚ}
    (ha : (double.value a).rational = some x)
    (hFits : Fits x) :
    (double.value (double.nearestWhole a)).rational =
      some (roundAway x : ℚ) :=
  rational_round (Value.rational_nearestWhole ha)
    (fits_roundAway hFits)

end PostScript.Ieee
