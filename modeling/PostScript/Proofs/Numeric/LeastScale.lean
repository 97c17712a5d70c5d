import PostScript.Proofs.Numeric.FixedPoint
import PostScript.Proofs.Numeric.Held

/-
  This file shows that a number in single precision has the
  fixed-point form with the least scale, or none at all, and
  that looking for it scale by scale in double precision, and
  leaving off at the first product that is too great, is exact.

  Key definitions include:
    * `FixedPoint.IsLeast`
    * `FixedPoint.product`
    * `FixedPoint.search`
    * `FixedPoint.quotient`

  Main results:
    * `FixedPoint.ofSingle?_eq_some_iff`
    * `FixedPoint.searchAmong_eq`
    * `FixedPoint.round_quotient`
    * `FixedPoint.ofSingle?_least`
-/

namespace PostScript.FixedPoint

open Ieee

------------------------------------------------------------
-- Whole Numbers
------------------------------------------------------------

/- A number is whole exactly if a whole number equals it. -/
theorem isWhole_iff
    (m : Nat)
    (k : Int) :
    isWhole m k = true ↔ ∃ n : Nat, (n : ℚ) = dyadic m k := by
  constructor
  · intro hWhole
    exact ⟨whole m k, whole_eq hWhole⟩
  · rintro ⟨n, hn⟩
    have hCast : ((power 2 (-k).toNat : Nat) : ℚ) ≠ 0 := by
      exact_mod_cast
        Nat.pos_iff_ne_zero.mp (power_two_pos (-k).toNat)
    rw [dyadic_eq_quotient, eq_div_iff hCast] at hn
    have hNat :
        n * power 2 (-k).toNat = m * power 2 k.toNat := by
      exact_mod_cast hn
    rw [isWhole, ← hNat, Nat.mul_mod_left]
    rfl

/- Equal numbers are whole alike. -/
theorem isWhole_congr
    {m m' : Nat}
    {k k' : Int}
    (h : dyadic m k = dyadic m' k') :
    isWhole m k = isWhole m' k' := by
  rw [Bool.eq_iff_iff, isWhole_iff, isWhole_iff, h]

theorem whole_congr
    {m m' : Nat}
    {k k' : Int}
    (h : dyadic m k = dyadic m' k')
    (hWhole : isWhole m k = true) :
    whole m k = whole m' k' := by
  have hCast : (whole m k : ℚ) = whole m' k' := by
    rw [whole_eq hWhole, h,
      whole_eq (isWhole_congr h ▸ hWhole)]
  exact_mod_cast hCast

/- Whole numbers may be compared without a quotient. -/
theorem lt_dyadic_iff
    (n m : Nat)
    (k : Int) :
    n * power 2 (-k).toNat < m * power 2 k.toNat ↔
      (n : ℚ) < dyadic m k := by
  have hCast : (0 : ℚ) < (power 2 (-k).toNat : Nat) := by
    exact_mod_cast power_two_pos (-k).toNat
  rw [dyadic_eq_quotient, lt_div_iff₀ hCast]
  exact_mod_cast Iff.rfl

/- A greater scale does not make a number smaller. -/
theorem dyadic_le_of_le
    (m : Nat)
    (e : Int)
    {s t : Nat}
    (h : s ≤ t) :
    dyadic m (e + s) ≤ dyadic m (e + t) := by
  have hPower :
      (2 : ℚ) ^ (e + (s : Int)) ≤ (2 : ℚ) ^ (e + (t : Int)) :=
    zpow_le_zpow_right₀ (by norm_num) (by omega)
  exact mul_le_mul_of_nonneg_left hPower (Nat.cast_nonneg m)

------------------------------------------------------------
-- Least Scales
------------------------------------------------------------

/-
  A form of a number: its scale is the least from 1 to 31 at
  which the number is whole, its mantissa is the number at that
  scale, and the magnitude of the mantissa takes 31 bits.
-/
structure IsLeast
    (x : FixedPoint)
    (v : ℚ) : Prop where
  positive : 1 ≤ x.scale
  bounded : x.scale ≤ 31
  exact : v * (2 : ℚ) ^ x.scale = x.mantissa.toInt
  least :
    ∀ s, 1 ≤ s → s < x.scale →
      ∀ n : Int, v * (2 : ℚ) ^ s ≠ n
  fits : |x.mantissa.toInt| ≤ 0x7fffffff

/- A number at a scale is its significand at a place. -/
theorem signed_mul_power
    (negative : Bool)
    (m : Nat)
    (e : Int)
    (s : Nat) :
    (Value.signed negative m : ℚ) * (2 : ℚ) ^ e *
        (2 : ℚ) ^ s =
      (Value.signed negative m : ℚ) *
        (2 : ℚ) ^ (e + (s : Int)) := by
  rw [zpow_add₀ (by norm_num), zpow_natCast, mul_assoc]

/- The whole number at a place has the sign of the number. -/
theorem signed_whole
    (negative : Bool)
    {m : Nat}
    {k : Int}
    (hWhole : isWhole m k = true) :
    (Value.signed negative m : ℚ) * (2 : ℚ) ^ k =
      (Value.signed negative (whole m k) : Int) := by
  have hEqual := whole_eq hWhole
  unfold dyadic at hEqual
  cases negative with
  | false =>
      simp only [Value.signed, Bool.false_eq_true, if_false,
        Int.cast_natCast]
      exact hEqual.symm
  | true =>
      simp only [Value.signed, if_true, Int.cast_neg,
        Int.cast_natCast]
      rw [neg_mul, ← hEqual]

/- A number is whole at a place if its magnitude is. -/
theorem isWhole_of_eq
    {negative : Bool}
    {m : Nat}
    {k n : Int}
    (h : (Value.signed negative m : ℚ) * (2 : ℚ) ^ k = n) :
    isWhole m k = true := by
  have hAbs := congrArg abs h
  rw [abs_signed_mul] at hAbs
  refine (isWhole_iff m k).mpr ⟨n.natAbs, ?_⟩
  rw [hAbs, Nat.cast_natAbs, Int.cast_abs]

/- A sign does not change a magnitude. -/
theorem abs_signed
    (negative : Bool)
    (n : Nat) :
    |Value.signed negative n| = n := by
  unfold Value.signed
  split
  · rw [abs_neg, Nat.abs_cast]
  · rw [Nat.abs_cast]

/- A mantissa of 31 bits and a sign is held. -/
theorem toInt_signed
    (negative : Bool)
    {n : Nat}
    (hn : n ≤ 0x7fffffff) :
    (Int32.ofInt (Value.signed negative n)).toInt =
      Value.signed negative n := by
  have hAbs := abs_le.mp (abs_signed negative n).le
  apply Int32.toInt_ofInt_of_le <;> omega

------------------------------------------------------------
-- First Scales
------------------------------------------------------------

/-
  The form of a finite number with the first scale of a list
  at which the number is whole, if its mantissa fits.
-/
def firstForm
    (negative : Bool)
    (m : Nat)
    (e : Int)
    (scales : List Nat) : Option FixedPoint :=
  match scales.find? (fun s : Nat => isWhole m (e + s)) with
  | some s =>
      if whole m (e + s) ≤ 0x7fffffff then
        some ⟨Int32.ofInt
          (Value.signed negative (whole m (e + s))), s⟩
      else
        none
  | none => none

/- The form of a finite number has the first scale from one. -/
theorem ofSingle?_eq_firstForm
    {bits : UInt32}
    {negative : Bool}
    {m : Nat}
    {e : Int}
    (hValue :
      single.value bits.toNat = .finite negative m e)
    (hm : m ≠ 0) :
    ofSingle? bits =
      firstForm negative m e (List.range' 1 31) := by
  unfold ofSingle? firstForm
  rw [hValue]
  exact if_neg hm

/- The first scale from one is the least. -/
theorem firstForm_eq_some_iff
    (negative : Bool)
    (m : Nat)
    (e : Int)
    (x : FixedPoint) :
    firstForm negative m e (List.range' 1 31) = some x ↔
      x.IsLeast
        ((Value.signed negative m : ℚ) * (2 : ℚ) ^ e) := by
  unfold firstForm
  constructor
  · intro h
    split at h
    next s hFind =>
      rw [List.find?_range'_eq_some, List.mem_range'_1]
        at hFind
      rcases hFind with ⟨hWhole, ⟨hLow, hHigh⟩, hLeast⟩
      split at h
      next hFits =>
        cases h
        have hInt := toInt_signed negative hFits
        refine ⟨hLow, Nat.le_of_lt_succ hHigh, ?_, ?_, ?_⟩
        · rw [hInt, signed_mul_power, signed_whole _ hWhole]
        · intro t hPositive hLess n hn
          rw [signed_mul_power] at hn
          have hNot := hLeast t hPositive hLess
          rw [isWhole_of_eq hn] at hNot
          contradiction
        · rw [hInt, abs_signed]
          exact_mod_cast hFits
      next => contradiction
    next => contradiction
  · rintro ⟨hLow, hHigh, hExact, hLeast, hFits⟩
    rw [signed_mul_power] at hExact
    have hWhole := isWhole_of_eq hExact
    have hFind :
        (List.range' 1 31).find?
            (fun s : Nat => isWhole m (e + s)) =
          some x.scale := by
      rw [List.find?_range'_eq_some, List.mem_range'_1]
      refine ⟨hWhole, ⟨hLow, by omega⟩, ?_⟩
      intro t hPositive hLess
      rw [Bool.not_eq_true']
      by_contra hNot
      rw [Bool.not_eq_false] at hNot
      refine hLeast t hPositive hLess
        (Value.signed negative (whole m (e + t))) ?_
      rw [signed_mul_power, signed_whole _ hNot]
    have hMantissa :
        x.mantissa.toInt =
          Value.signed negative (whole m (e + x.scale)) := by
      rw [signed_whole _ hWhole] at hExact
      exact_mod_cast hExact.symm
    have hSmall : whole m (e + x.scale) ≤ 0x7fffffff := by
      rw [hMantissa, abs_signed] at hFits
      exact_mod_cast hFits
    rw [hFind]
    dsimp only
    rw [if_pos hSmall, ← hMantissa, Int32.ofInt_toInt]

/-
  There is a form with the least scale if there is any form at
  all, since mantissas grow with their scales.
-/
theorem exists_isLeast
    {v : ℚ}
    {s : Nat}
    {n : Int}
    (hPositive : 1 ≤ s)
    (hBounded : s ≤ 31)
    (hFits : |n| ≤ 0x7fffffff)
    (hExact : v * (2 : ℚ) ^ s = n) :
    ∃ x : FixedPoint, x.IsLeast v := by
  classical
  have hWhole :
      ∃ t : Nat, 1 ≤ t ∧ ∃ k : Int, v * (2 : ℚ) ^ t = k :=
    ⟨s, hPositive, n, hExact⟩
  have hFirst : Nat.find hWhole ≤ s :=
    Nat.find_min' hWhole ⟨hPositive, n, hExact⟩
  rcases Nat.find_spec hWhole with ⟨hLow, k, hk⟩
  have hLess : |k| ≤ |n| := by
    have hPower :
        (2 : ℚ) ^ Nat.find hWhole ≤ (2 : ℚ) ^ s :=
      pow_le_pow_right₀ (by norm_num) hFirst
    have hCast : |(k : ℚ)| ≤ |(n : ℚ)| := by
      rw [← hk, ← hExact, abs_mul, abs_mul,
        abs_of_pos (by positivity : (0 : ℚ) < 2 ^ s),
        abs_of_pos
          (by positivity : (0 : ℚ) < 2 ^ Nat.find hWhole)]
      exact mul_le_mul_of_nonneg_left hPower (abs_nonneg v)
    exact_mod_cast hCast
  have hSmall := hLess.trans hFits
  have hBounds := abs_le.mp hSmall
  have hInt : (Int32.ofInt k).toInt = k :=
    Int32.toInt_ofInt_of_le (by omega) (by omega)
  refine ⟨⟨Int32.ofInt k, Nat.find hWhole⟩, hLow,
    hFirst.trans hBounded, ?_, ?_, ?_⟩
  · rw [hInt]
    exact hk
  · intro t ht hEarlier i hi
    exact Nat.find_min hWhole hEarlier ⟨ht, i, hi⟩
  · rw [hInt]
    exact hSmall

------------------------------------------------------------
-- Searching
------------------------------------------------------------

/-
  The product of a number in single precision and a power of
  two, rounded to double precision.
-/
def product
    (bits : UInt32)
    (s : Nat) : Value :=
  match single.value bits.toNat with
  | .finite negative m e =>
      double.value (double.round (.finite negative m (e + s)))
  | v => v

/-
  Try scales one by one. A product whose magnitude takes more
  than 31 bits ends the search.
-/
def searchAmong
    (bits : UInt32) : List Nat → Option FixedPoint
  | [] => none
  | s :: rest =>
      match product bits s with
      | .finite negative m e =>
          if 0x7fffffff * power 2 (-e).toNat <
              m * power 2 e.toNat then
            none
          else if isWhole m e then
            some ⟨Int32.ofInt
              (Value.signed negative (whole m e)), s⟩
          else
            searchAmong bits rest
      | _ => none

/- Try the scales from 1 to 31 for a number but zero. -/
def search
    (bits : UInt32) : Option FixedPoint :=
  match single.value bits.toNat with
  | .finite _ m _ =>
      if m = 0 then
        none
      else
        searchAmong bits (List.range' 1 31)
  | _ => none

/- The fields of finite numbers in single precision. -/
theorem single_finite
    {bits : UInt32}
    {negative : Bool}
    {m : Nat}
    {e : Int}
    (hValue :
      single.value bits.toNat = .finite negative m e) :
    m < power 2 24 ∧ -149 ≤ e ∧ e ≤ 104 := by
  have hRational :
      (single.value bits.toNat).rational =
        some ((Value.signed negative m : ℚ) *
          (2 : ℚ) ^ e) := by
    rw [hValue]
    rfl
  have hTop := (single.rational_eq_some hRational).1
  rw [single.value_eq _ hTop] at hValue
  cases hValue
  refine ⟨single.significand_lt _, ?_⟩
  have hLeast : single.leastExponent = -149 := by decide
  have hField : single.exponentField bits.toNat < 256 :=
    Nat.mod_lt _ (by decide)
  have hNotTop : single.exponentField bits.toNat ≠ 255 := hTop
  unfold Format.exponent
  omega

/- Products are exact in double precision. -/
theorem product_eq
    {bits : UInt32}
    {negative : Bool}
    {m : Nat}
    {e : Int}
    (hValue :
      single.value bits.toNat = .finite negative m e)
    {s : Nat}
    (hs : s ≤ 31) :
    ∃ m' e',
      product bits s = .finite negative m' e' ∧
        dyadic m' e' = dyadic m (e + s) := by
  rcases single_finite hValue with ⟨hm, hLow, hHigh⟩
  have hBits : m < power 2 53 :=
    hm.trans (by decide)
  unfold product
  rw [hValue]
  exact double_held negative hBits (by omega) (by omega)

/-
  Searching finds the first scale at which the number is whole.
  Where it leaves off, the mantissa of every later scale would
  not fit either.
-/
theorem searchAmong_eq
    {bits : UInt32}
    {negative : Bool}
    {m : Nat}
    {e : Int}
    (hValue :
      single.value bits.toNat = .finite negative m e)
    {scales : List Nat}
    (hSorted : scales.Pairwise (· < ·))
    (hBounded : ∀ s ∈ scales, s ≤ 31) :
    searchAmong bits scales = firstForm negative m e scales := by
  induction scales with
  | nil => rfl
  | cons s rest ih =>
      rw [List.pairwise_cons] at hSorted
      rw [List.forall_mem_cons] at hBounded
      rcases product_eq hValue hBounded.1 with
        ⟨m', e', hProduct, hSame⟩
      have hRest := ih hSorted.2 hBounded.2
      have hGreat := lt_dyadic_iff 0x7fffffff m' e'
      rw [hSame] at hGreat
      rw [searchAmong, hProduct]
      dsimp only
      cases hWhole : isWhole m (e + s) with
      | true =>
          have hWhole' : isWhole m' e' = true :=
            isWhole_congr hSame ▸ hWhole
          rw [← whole_eq hWhole, Nat.cast_lt] at hGreat
          have hFind :
              (s :: rest).find?
                  (fun t : Nat => isWhole m (e + t)) =
                some s :=
            List.find?_cons_of_pos hWhole
          rw [if_pos hWhole', whole_congr hSame hWhole']
          unfold firstForm
          rw [hFind]
          dsimp only
          by_cases hFits : whole m (e + s) ≤ 0x7fffffff
          · rw [if_pos hFits,
              if_neg (mt hGreat.mp (Nat.not_lt.mpr hFits))]
          · rw [if_neg hFits,
              if_pos (hGreat.mpr (Nat.lt_of_not_le hFits))]
      | false =>
          have hNot : ¬ isWhole m (e + s) = true := by
            rw [hWhole]
            exact Bool.false_ne_true
          have hNot' : ¬ isWhole m' e' = true := by
            rwa [isWhole_congr hSame]
          have hLater :
              firstForm negative m e (s :: rest) =
                firstForm negative m e rest := by
            have hFind :
                (s :: rest).find?
                    (fun t : Nat => isWhole m (e + t)) =
                  rest.find?
                    (fun t : Nat => isWhole m (e + t)) :=
              List.find?_cons_of_neg hNot
            unfold firstForm
            rw [hFind]
          rw [if_neg hNot', hRest, hLater]
          split
          next hExceeds =>
            -- Later mantissas are greater still.
            unfold firstForm
            split
            next t hFind =>
              have hLess :=
                hSorted.1 t (List.mem_of_find?_eq_some hFind)
              have hFound := List.find?_some hFind
              have hGrows := dyadic_le_of_le m e hLess.le
              rw [← whole_eq hFound] at hGrows
              have hCast := (hGreat.mp hExceeds).trans_le hGrows
              rw [Nat.cast_lt] at hCast
              rw [if_neg (Nat.not_le.mpr hCast)]
            next => rfl
          next => rfl

/- Searching finds what is chosen. -/
theorem search_eq
    (bits : UInt32) :
    search bits = ofSingle? bits := by
  cases hValue : single.value bits.toNat with
  | nan =>
      unfold search ofSingle?
      rw [hValue]
  | infinite negative =>
      unfold search ofSingle?
      rw [hValue]
  | finite negative m e =>
      by_cases hm : m = 0
      · unfold search ofSingle?
        rw [hValue]
        dsimp only
        rw [if_pos hm, if_pos hm]
      · rw [ofSingle?_eq_firstForm hValue hm]
        unfold search
        rw [hValue]
        dsimp only
        rw [if_neg hm]
        refine searchAmong_eq hValue List.pairwise_lt_range' ?_
        intro s hs
        rw [List.mem_range'_1] at hs
        omega

------------------------------------------------------------
-- Quotients
------------------------------------------------------------

/- The quotient of a form in double precision. -/
def quotient
    (x : FixedPoint) : Value :=
  double.value (double.round
    (.finite (x.mantissa.toInt < 0) x.mantissa.toInt.natAbs
      (-(x.scale : Int))))

/-
  The quotient is exact, so that rounding it once more gives
  back the bits that the form was made from.
-/
theorem round_quotient
    {bits : UInt32}
    {x : FixedPoint}
    (h : ofSingle? bits = some x) :
    single.round x.quotient = bits.toNat := by
  have hScale := (scale_ofSingle? h).2
  have hMantissa : x.mantissa.toInt.natAbs < power 2 53 := by
    have hLow := x.mantissa.le_toInt
    have hHigh := x.mantissa.toInt_lt
    have hPower : power 2 53 = 9007199254740992 := rfl
    omega
  rcases double_held (decide (x.mantissa.toInt < 0))
      hMantissa (e := -(x.scale : Int)) (by omega)
      (by omega) with
    ⟨m, e, hQuotient, hSame⟩
  rw [quotient, hQuotient]
  exact round_ofSingle? h hSame

------------------------------------------------------------
-- Single Precision
------------------------------------------------------------

/-
  The fixed-point form of a number in single precision is the
  one with the least scale from 1 to 31 at which the number is
  whole, if its mantissa takes no more than 31 bits and a sign.
  There is none exactly if no scale and mantissa are the number,
  and never one of a zero, an infinity or a NaN. The quotient of
  a form is rounded to the bits that it was made from. Searching
  scale by scale in double precision finds the same form.
-/
theorem ofSingle?_least
    (bits : UInt32) :
    (∀ v, (single.value bits.toNat).rational = some v →
      v ≠ 0 →
        (∀ x, ofSingle? bits = some x ↔ x.IsLeast v) ∧
        (ofSingle? bits = none ↔
          ∀ (s : Nat) (n : Int), 1 ≤ s → s ≤ 31 →
            |n| ≤ 0x7fffffff → v * (2 : ℚ) ^ s ≠ n)) ∧
      ((∀ v, (single.value bits.toNat).rational = some v →
          v = 0) →
        ofSingle? bits = none) ∧
      (∀ x, ofSingle? bits = some x →
        single.round x.quotient = bits.toNat ∧
          x.toSingle = bits) ∧
      search bits = ofSingle? bits := by
  refine ⟨?_, ?_,
    fun x h => ⟨round_quotient h, toSingle_ofSingle? h⟩,
    search_eq bits⟩
  · intro v hv hSome
    cases hValue : single.value bits.toNat with
    | nan | infinite =>
        rw [hValue] at hv
        contradiction
    | finite negative m e =>
        rw [hValue] at hv
        cases hv
        have hm : m ≠ 0 := by
          rintro rfl
          apply hSome
          cases negative <;> simp [Value.signed]
        have hForms :
            ∀ x, ofSingle? bits = some x ↔
              x.IsLeast ((Value.signed negative m : ℚ) *
                (2 : ℚ) ^ e) := by
          intro x
          rw [ofSingle?_eq_firstForm hValue hm]
          exact firstForm_eq_some_iff negative m e x
        refine ⟨hForms, ?_, ?_⟩
        · intro hNone s n hLow hHigh hFits hExact
          rcases exists_isLeast hLow hHigh hFits hExact with
            ⟨x, hx⟩
          rw [← hForms, hNone] at hx
          contradiction
        · intro hNever
          rw [Option.eq_none_iff_forall_ne_some]
          intro x hx
          have hLeast := (hForms x).mp hx
          exact hNever x.scale x.mantissa.toInt
            hLeast.positive hLeast.bounded hLeast.fits
            hLeast.exact
  · intro hZero
    cases hValue : single.value bits.toNat with
    | nan | infinite =>
        unfold ofSingle?
        rw [hValue]
    | finite negative m e =>
        have hm : m = 0 := by
          have hNumber := hZero _ (by rw [hValue]; rfl)
          have hAbs := abs_signed_mul negative m e
          rw [hNumber, abs_zero] at hAbs
          by_contra hSome
          exact (dyadic_pos (Nat.pos_of_ne_zero hSome) e).ne
            hAbs
        unfold ofSingle?
        rw [hValue]
        dsimp only
        rw [if_pos hm]

/-
  The nearest number to a tenth needs 27 places, 2^31 has no
  form although it is whole, and neither has negative zero.
-/
theorem ofSingle?_least_tenth :
    (13421773 : ℚ) * (2 : ℚ) ^ (-27 : Int) ≠ 0 ∧
      IsLeast ⟨13421773, 27⟩
        ((13421773 : ℚ) * (2 : ℚ) ^ (-27 : Int)) ∧
      single.round (quotient ⟨13421773, 27⟩) = 0x3dcccccd ∧
      search 0x3dcccccd = some ⟨13421773, 27⟩ ∧
      (∀ (s : Nat) (n : Int), 1 ≤ s → s ≤ 31 →
        |n| ≤ 0x7fffffff →
          (8388608 : ℚ) * (2 : ℚ) ^ (8 : Int) *
            (2 : ℚ) ^ s ≠ n) ∧
      ofSingle? 0x80000000 = none := by
  have hTenth :
      single.value (0x3dcccccd : UInt32).toNat =
        .finite false 13421773 (-27) := by
    decide
  have hGreat :
      single.value (0x4f000000 : UInt32).toNat =
        .finite false 8388608 8 := by
    decide
  have hForm :
      ofSingle? 0x3dcccccd = some ⟨13421773, 27⟩ := by
    decide +kernel
  have hNone : ofSingle? 0x4f000000 = none := by
    decide +kernel
  have hSome :
      (13421773 : ℚ) * (2 : ℚ) ^ (-27 : Int) ≠ 0 := by
    positivity
  have hSome' : (8388608 : ℚ) * (2 : ℚ) ^ (8 : Int) ≠ 0 := by
    positivity
  rcases ofSingle?_least 0x3dcccccd with
    ⟨hLeast, -, hBack, hSearch⟩
  refine ⟨hSome, ?_, (hBack _ hForm).1, hSearch.trans hForm,
    ?_, ?_⟩
  · refine ((hLeast _ ?_ hSome).1 _).mp hForm
    rw [hTenth]
    norm_num [Value.signed]
  · refine (((ofSingle?_least 0x4f000000).1 _ ?_ hSome').2).mp
      hNone
    rw [hGreat]
    norm_num [Value.signed]
  · apply (ofSingle?_least 0x80000000).2.1
    intro v hv
    have hZero :
        single.value (0x80000000 : UInt32).toNat =
          .finite true 0 (-149) := by
      decide
    rw [hZero] at hv
    cases hv
    norm_num [Value.signed]

end PostScript.FixedPoint
