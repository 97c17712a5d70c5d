import Mathlib.Data.List.Induction
import PostScript.Proofs.Numeric.Decimals
import PostScript.Proofs.Numeric.Overflow

/-
  This file shows which real a decimal literal is. Its number
  is rounded to double precision and then to single precision.
  Of an exponent only leading digits count, but what they
  leave out makes no difference unless tens of thousands of
  digits stand before the exponent.

  Key definitions include:
    * `Ieee.RoundsTwice`
    * `Counted`
    * `DecimalParts.value`

  Main results:
    * `Decimal.roundsTwice`
    * `counted_exponentValue`
    * `DecimalParts.roundsTwice_exact`
-/

namespace PostScript

------------------------------------------------------------
-- Two Roundings
------------------------------------------------------------

namespace Ieee

/-
  The bits of a magnitude that is rounded to double precision
  and then to single precision, behind a sign.
-/
def RoundsTwice
    (negative : Bool)
    (x : ℚ)
    (bits : UInt32) : Prop :=
  ∃ a b,
    double.Nearest x a ∧
      single.Nearest (double.magnitude a) b ∧
      bits.toNat = single.withSign negative b

/- The least power of two that is past single precision. -/
theorem single_magnitude_infinity :
    single.magnitude single.infinityBits =
      (2 : ℚ) ^ (128 : Int) := by
  rw [Format.magnitude_infinity (by decide)]
  exact congrArg _ (by decide)

/- The same for double precision. -/
theorem double_magnitude_infinity :
    double.magnitude double.infinityBits =
      (2 : ℚ) ^ (1024 : Int) := by
  rw [Format.magnitude_infinity (by decide)]
  exact congrArg _ (by decide)

/- The least number of single precision. -/
theorem single_magnitude_one :
    single.magnitude 1 = (2 : ℚ) ^ (-149 : Int) := by
  have hSignificand : single.significand 1 = 1 := by decide
  have hExponent : single.exponent 1 = -149 := by decide
  rw [Format.magnitude, hSignificand, hExponent, dyadic,
    Nat.cast_one, one_mul]

/- The bits of a power of two in double precision. -/
theorem double_magnitude_power
    {k : Int}
    {field : Nat}
    (hLower : 1 ≤ field)
    (hUpper : field ≤ 2047)
    (hPower : (field : Int) = k + 1023) :
    field * power 2 52 ≤ double.infinityBits ∧
      double.magnitude (field * power 2 52) =
        (2 : ℚ) ^ k := by
  have hLeast : double.leastExponent = -1074 := by decide
  have hBits : double.fractionBits = 52 := rfl
  refine ⟨Nat.mul_le_mul_right _ hUpper, ?_⟩
  rw [← hBits, double.magnitude_power hLower hUpper, hLeast,
    hBits]
  congr 1
  omega

variable {x y : ℚ}
variable {a b : Nat}

/- What is far past single precision becomes infinity. -/
theorem eq_infinity_of_great
    (hx : (2 : ℚ) ^ (129 : Int) ≤ x)
    (hA : double.Nearest x a)
    (hB : single.Nearest (double.magnitude a) b) :
    b = single.infinityBits := by
  rcases @double_magnitude_power 129 1152 (by decide)
      (by decide) (by decide) with
    ⟨hBelow, hPower⟩
  apply hB.eq_infinity (by decide)
  rw [single_magnitude_infinity]
  have hLess := hA.le_magnitude hBelow (by rwa [hPower])
  rw [hPower] at hLess
  refine le_trans ?_ hLess
  exact zpow_le_zpow_right₀ (by norm_num)
    (by decide : (128 : Int) ≤ 129)

/- What is far below single precision becomes zero. -/
theorem eq_zero_of_small
    (hx : x ≤ (2 : ℚ) ^ (-152 : Int))
    (hA : double.Nearest x a)
    (hB : single.Nearest (double.magnitude a) b) :
    b = 0 := by
  rcases @double_magnitude_power (-152) 871 (by decide)
      (by decide) (by decide) with
    ⟨hBelow, hPower⟩
  have hLess := hA.magnitude_le hBelow (by rwa [hPower])
  rw [hPower] at hLess
  apply hB.eq_zero (by decide)
  · unfold Format.magnitude dyadic
    positivity
  · rw [single_magnitude_one]
    have hHalf :
        2 * (2 : ℚ) ^ (-152 : Int) < (2 : ℚ) ^ (-149 : Int) := by
      norm_num
    linarith

/-
  If all roundings of two magnitudes are the same, so are the
  bits that they become.
-/
theorem RoundsTwice.congr
    {negative : Bool}
    {bits : UInt32}
    {c : Nat}
    (h : RoundsTwice negative x bits)
    (hy : 0 ≤ y)
    (hLeft :
      ∀ {a b}, double.Nearest x a →
        single.Nearest (double.magnitude a) b → b = c)
    (hRight :
      ∀ {a b}, double.Nearest y a →
        single.Nearest (double.magnitude a) b → b = c) :
    RoundsTwice negative y bits := by
  have hNonneg : ∀ a, 0 ≤ double.magnitude a := by
    intro a
    unfold Format.magnitude dyadic
    positivity
  rcases h with ⟨a, b, hA, hB, hBits⟩
  rcases Format.exists_nearest (F := double) (by decide)
      (by decide) hy with
    ⟨a', hA'⟩
  rcases Format.exists_nearest (F := single) (by decide)
      (by decide) (hNonneg a') with
    ⟨b', hB'⟩
  refine ⟨a', b', hA', hB', ?_⟩
  rw [hBits, hLeft hA hB, hRight hA' hB']

end Ieee

open Ieee

------------------------------------------------------------
-- Literals
------------------------------------------------------------

/- A number behind a power of ten is this quotient. -/
theorem quotient_power_ten
    (m : Nat)
    (k : Int) :
    ((m * power 10 k.toNat : Nat) : ℚ) /
        ((power 10 (-k).toNat : Nat) : ℚ) =
      (m : ℚ) * (10 : ℚ) ^ k := by
  have hCast :
      ∀ n, ((power 10 n : Nat) : ℚ) = (10 : ℚ) ^ n := by
    intro n
    change ((10 ^ n : Nat) : ℚ) = _
    push_cast
    rfl
  rw [Nat.cast_mul, hCast, hCast]
  rcases Int.le_total 0 k with hk | hk
  · have hZero : (-k).toNat = 0 := by omega
    rw [hZero, pow_zero, div_one, ← zpow_natCast,
      Int.toNat_of_nonneg hk]
  · have hZero : k.toNat = 0 := by omega
    rw [hZero, pow_zero, mul_one, ← zpow_natCast,
      Int.toNat_of_nonneg (by omega), zpow_neg, div_inv_eq_mul]

/- A decimal literal is rounded twice. -/
theorem Decimal.roundsTwice
    (d : Decimal) :
    RoundsTwice d.negative
      ((decimalValue (d.digits ++ d.fraction) : ℚ) *
        (10 : ℚ) ^ d.lastPlace)
      d.toSingle := by
  have hRange :
      single.magnitude single.infinityBits ≤
        double.magnitude double.infinityBits := by
    rw [single_magnitude_infinity, double_magnitude_infinity]
    exact zpow_le_zpow_right₀ (by norm_num)
      (by decide : (128 : Int) ≤ 1024)
  have hDen : 0 < power 10 (-d.lastPlace).toNat :=
    Nat.pow_pos (by decide)
  have hNearest :=
    Format.nearest_nearest (F := double) (by decide)
      (by decide) (d.significand * power 10 d.lastPlace.toNat)
      hDen
  rcases Format.round_withSign (F := single) (G := double)
      (by decide) (by decide) hRange d.negative hNearest.1 with
    ⟨b, hRound, hB⟩
  have hSame :
      d.significand = decimalValue (d.digits ++ d.fraction) :=
    decimalByHalves_eq _
  rw [quotient_power_ten] at hNearest
  rw [← hSame]
  refine ⟨_, b, hNearest, hB, ?_⟩
  rw [d.toNat_toSingle, d.toNat_toDouble]
  exact hRound

------------------------------------------------------------
-- Exponents
------------------------------------------------------------

/-
  The number of the digits of an exponent that count: all of
  them, or those up to the first number from 65536 on.
-/
def Counted
    (digits : List UInt8)
    (e : Nat) : Prop :=
  ∃ front rest,
    digits = front ++ rest ∧ e = decimalValue front ∧
      e < 655360 ∧ (rest ≠ [] → 65536 ≤ e)

/- A decimal digit counts at most nine. -/
theorem digit_le
    {b : UInt8}
    (h : isDigit b = true) :
    b.toNat - '0'.toNat ≤ 9 := by
  unfold isDigit isBetween at h
  rw [Bool.and_eq_true, decide_eq_true_eq, decide_eq_true_eq,
    UInt8.le_iff_toNat_le, UInt8.le_iff_toNat_le] at h
  have hNine : (code '9').toNat = 57 := rfl
  have hZero : '0'.toNat = 48 := rfl
  omega

/- One more digit moves the others up. -/
theorem decimalValue_concat
    (digits : List UInt8)
    (b : UInt8) :
    decimalValue (digits ++ [b]) =
      decimalValue digits * 10 + (b.toNat - '0'.toNat) := by
  unfold decimalValue
  rw [List.foldl_append]
  rfl

/- Zeros spell nothing. -/
theorem decimalValue_zeros
    (n : Nat) :
    decimalValue (List.replicate n (code '0')) = 0 := by
  induction n with
  | zero => rfl
  | succ n ih =>
      rw [List.replicate_succ', decimalValue_concat, ih]
      rfl

/- Digits spell less than the next power of ten. -/
theorem decimalValue_lt
    {digits : List UInt8}
    (hDigits : ∀ b ∈ digits, isDigit b = true) :
    decimalValue digits < 10 ^ digits.length := by
  induction digits using List.reverseRecOn with
  | nil => decide
  | append_singleton digits b ih =>
      have hLess :=
        ih (fun c hc => hDigits c (List.mem_append_left _ hc))
      have hDigit := digit_le (hDigits b (by simp))
      rw [decimalValue_concat, List.length_append,
        List.length_singleton, Nat.pow_succ]
      omega

/- The exponent that is read is the number that counts. -/
theorem counted_exponentValue
    {digits : List UInt8}
    (hDigits : ∀ b ∈ digits, isDigit b = true) :
    Counted digits (Decimal.exponentValue digits) := by
  induction digits using List.reverseRecOn with
  | nil => exact ⟨[], [], rfl, rfl, by decide, nofun⟩
  | append_singleton digits b ih =>
      rcases ih
          (fun c hc => hDigits c (List.mem_append_left _ hc))
        with ⟨front, rest, hSplit, hValue, hLess, hRest⟩
      have hDigit := digit_le (hDigits b (by simp))
      have hStep :
          Decimal.exponentValue (digits ++ [b]) =
            if Decimal.exponentValue digits < 65536 then
              Decimal.exponentValue digits * 10 +
                (b.toNat - '0'.toNat)
            else
              Decimal.exponentValue digits := by
        unfold Decimal.exponentValue
        rw [List.foldl_append]
        rfl
      rw [hStep]
      split
      next hGrows =>
        -- So far all digits have counted.
        have hNone : rest = [] := by
          by_contra hSome
          have := hRest hSome
          omega
        subst hNone
        rw [List.append_nil] at hSplit
        refine ⟨digits ++ [b], [], (List.append_nil _).symm, ?_,
          by omega, fun h => absurd rfl h⟩
        rw [decimalValue_concat, hSplit, ← hValue]
        rw [hSplit]
      next hStops =>
        refine ⟨front, rest ++ [b], ?_, hValue, hLess,
          fun _ => Nat.le_of_not_lt hStops⟩
        rw [hSplit, List.append_assoc]

/- All digits count unless they spell too great a number. -/
theorem Counted.eq_or_great
    {digits : List UInt8}
    {e : Nat}
    (h : Counted digits e) :
    e = decimalValue digits ∨
      (655360 ≤ decimalValue digits ∧ 65536 ≤ e) := by
  rcases h with ⟨front, rest, rfl, hValue, hLess, hRest⟩
  cases rest with
  | nil =>
      left
      rw [List.append_nil]
      exact hValue
  | cons b rest =>
      right
      have hGreat := hRest (List.cons_ne_nil b rest)
      have hTen : 10 ≤ power 10 (b :: rest).length := by
        rw [List.length_cons, power_succ]
        exact Nat.le_mul_of_pos_left 10
          (Nat.pow_pos (by decide))
      have hMoved :=
        Nat.mul_le_mul (hValue ▸ hGreat) hTen
      rw [decimalValue_append]
      omega

------------------------------------------------------------
-- Exact Values
------------------------------------------------------------

namespace DecimalParts

variable {x : DecimalParts}
variable {e : Nat}

/- The magnitude of a literal, with a number as exponent. -/
def value
    (x : DecimalParts)
    (e : Nat) : ℚ :=
  (decimalValue (x.digits ++ x.fraction) : ℚ) *
    (10 : ℚ) ^ (Value.signed x.downward e - x.fraction.length)

/- Magnitudes are not negative. -/
theorem value_nonneg
    (x : DecimalParts)
    (e : Nat) :
    0 ≤ x.value e := by
  unfold value
  positivity

/-
  A great exponent makes a great number, unless there are many
  digits behind the point.
-/
theorem great_value
    (hUp : x.downward = false)
    (hSome : 0 < decimalValue (x.digits ++ x.fraction))
    (hFew : (x.digits ++ x.fraction).length ≤ 65490)
    (he : 65536 ≤ e) :
    (2 : ℚ) ^ (129 : Int) ≤ x.value e := by
  have hOne :
      (1 : ℚ) ≤ decimalValue (x.digits ++ x.fraction) := by
    exact_mod_cast hSome
  rw [List.length_append] at hFew
  unfold value
  rw [hUp]
  calc (2 : ℚ) ^ (129 : Int)
      ≤ (10 : ℚ) ^ (46 : Int) := by norm_num
    _ ≤ (10 : ℚ) ^
          (Value.signed false e - x.fraction.length) := by
        refine zpow_le_zpow_right₀ (by norm_num) ?_
        simp only [Value.signed, Bool.false_eq_true, if_false]
        omega
    _ ≤ _ :=
        le_mul_of_one_le_left (zpow_nonneg (by norm_num) _) hOne

/-
  A great negative exponent makes a small number, unless there
  are many digits.
-/
theorem small_value
    (hDigits : ∀ b ∈ x.digits ++ x.fraction, isDigit b = true)
    (hDown : x.downward = true)
    (hFew : (x.digits ++ x.fraction).length ≤ 65490)
    (he : 65536 ≤ e) :
    x.value e ≤ (2 : ℚ) ^ (-152 : Int) := by
  have hLess :
      (decimalValue (x.digits ++ x.fraction) : ℚ) ≤
        (10 : ℚ) ^ ((x.digits ++ x.fraction).length : Int) := by
    rw [zpow_natCast]
    exact_mod_cast (decimalValue_lt hDigits).le
  unfold value
  rw [hDown]
  calc (decimalValue (x.digits ++ x.fraction) : ℚ) *
        (10 : ℚ) ^ (Value.signed true e - x.fraction.length)
      ≤ (10 : ℚ) ^ ((x.digits ++ x.fraction).length : Int) *
          (10 : ℚ) ^
            (Value.signed true e - x.fraction.length) :=
        mul_le_mul_of_nonneg_right hLess
          (zpow_nonneg (by norm_num) _)
    _ = (10 : ℚ) ^
          (((x.digits ++ x.fraction).length : Int) +
            (Value.signed true e - x.fraction.length)) := by
        rw [zpow_add₀ (by norm_num)]
    _ ≤ (10 : ℚ) ^ (-46 : Int) := by
        refine zpow_le_zpow_right₀ (by norm_num) ?_
        simp only [Value.signed, if_true]
        omega
    _ ≤ (2 : ℚ) ^ (-152 : Int) := by norm_num

/-
  What does not count of an exponent does not matter, unless
  there are many digits before it.
-/
theorem roundsTwice_exact
    {negative : Bool}
    {bits : UInt32}
    (hDigits : ∀ b ∈ x.digits ++ x.fraction, isDigit b = true)
    (hCounted : Counted x.exponent e)
    (hRounds : RoundsTwice negative (x.value e) bits)
    (hExact :
      decimalValue x.exponent < 655360 ∨
        (x.digits ++ x.fraction).length ≤ 65490) :
    RoundsTwice negative
      (x.value (decimalValue x.exponent)) bits := by
  rcases hCounted.eq_or_great with hSame | ⟨hMany, hGreat⟩
  · rwa [← hSame]
  · have hFew := hExact.resolve_left (Nat.not_lt.mpr hMany)
    have hMore : 65536 ≤ decimalValue x.exponent := by omega
    have hNonneg := x.value_nonneg (decimalValue x.exponent)
    rcases Nat.eq_zero_or_pos
        (decimalValue (x.digits ++ x.fraction)) with
      hZero | hSome
    · have hSame :
          x.value (decimalValue x.exponent) = x.value e := by
        unfold value
        rw [hZero, Nat.cast_zero, zero_mul, zero_mul]
      rwa [hSame]
    · cases hSide : x.downward with
      | false =>
          exact hRounds.congr hNonneg
            (eq_infinity_of_great
              (great_value hSide hSome hFew hGreat))
            (eq_infinity_of_great
              (great_value hSide hSome hFew hMore))
      | true =>
          exact hRounds.congr hNonneg
            (eq_zero_of_small
              (small_value hDigits hSide hFew hGreat))
            (eq_zero_of_small
              (small_value hDigits hSide hFew hMore))

end DecimalParts

end PostScript
