import Mathlib.Algebra.Group.Nat.Defs
import PostScript.Numeric.Literal

/-
  This file reads number literals by their grammar: a base and
  digits on both sides of a number sign, or the parts of a
  decimal literal. Digits in a base that are added up one by
  one are shown to be read in this way.

  Key definitions include:
    * `RadixLiteral`
    * `RadixLiteral.leading`
    * `RadixLiteral.valueOf`
    * `RadixLiteral.read`
    * `Decimal.isPlain`
    * `Number.ofGrammar`

  Main results:
    * `Number.sumDigits_eq`
    * `Number.ofRadix_eq`
-/

namespace PostScript

------------------------------------------------------------
-- Digits
------------------------------------------------------------

/- Digits are taken up to what is none. -/
theorem span_digits
    {digits rest : List UInt8}
    (hDigits : ∀ b ∈ digits, isDigit b = true)
    (hRest : ∀ b, rest.head? = some b → isDigit b = false) :
    (digits ++ rest).takeWhile isDigit = digits ∧
      (digits ++ rest).dropWhile isDigit = rest := by
  rw [List.takeWhile_append_of_pos hDigits,
    List.dropWhile_append_of_pos hDigits]
  cases rest with
  | nil => simp
  | cons b rest => simp [hRest b rfl]

------------------------------------------------------------
-- Literals with a Base
------------------------------------------------------------

/- A base and the digits after the number sign. -/
structure RadixLiteral where
  base : Nat
  digits : List UInt8
deriving DecidableEq, Repr

namespace RadixLiteral

/- Split a literal after an unsigned base. -/
def ofLiteral?
    (token : List UInt8) : Option RadixLiteral :=
  let base := token.takeWhile isDigit
  match token.dropWhile isDigit with
  | b :: digits =>
      if b == code '#' && !base.isEmpty then
        some ⟨decimalValue base, digits⟩
      else
        none
  | [] => none

/- The digits of a base that a text begins with. -/
def leading
    (base : Nat)
    (text : List UInt8) : List UInt8 :=
  text.takeWhile (fun b => (digitOf base b).isSome)

/- The number that digits of a base spell behind a number. -/
def valueFrom
    (base v : Nat)
    (digits : List UInt8) : Nat :=
  digits.foldl
    (fun v b => v * base + (digitOf base b).getD 0) v

/- The number that digits of a base spell. -/
def valueOf
    (base : Nat)
    (digits : List UInt8) : Nat :=
  valueFrom base 0 digits

/-
  The number, or nothing if the literal is a name. The digits
  that come first must not spell more than 32 bits, whatever
  follows them.
-/
def read
    (l : RadixLiteral) : Except Cause (Option Number) :=
  if l.base < 2 ∨ 36 < l.base ∨ l.digits.isEmpty then
    .ok none
  else if 0xffffffff <
      valueOf l.base (leading l.base l.digits) then
    .error .tooLong
  else if leading l.base l.digits = l.digits then
    .ok (some (.integer
      (UInt32.ofNat (valueOf l.base l.digits)).toInt32))
  else
    .ok none

/- Nothing leads where the first byte is no digit. -/
theorem leading_none
    {base : Nat}
    {b : UInt8}
    (hDigit : digitOf base b = none)
    (text : List UInt8) :
    leading base (b :: text) = [] := by
  rw [leading, List.takeWhile_cons, hDigit]
  rfl

/- A digit leads those behind it -/
theorem leading_some
    {base d : Nat}
    {b : UInt8}
    (hDigit : digitOf base b = some d)
    (text : List UInt8) :
    leading base (b :: text) = b :: leading base text := by
  rw [leading, List.takeWhile_cons, hDigit]
  rfl

/- and is added to the number. -/
theorem valueFrom_some
    {base d : Nat}
    {b : UInt8}
    (hDigit : digitOf base b = some d)
    (v : Nat)
    (digits : List UInt8) :
    valueFrom base v (b :: digits) =
      valueFrom base (v * base + d) digits := by
  rw [valueFrom, List.foldl_cons, hDigit]
  rfl

/- Numbers do not get less with further digits. -/
theorem le_valueFrom
    {base : Nat}
    (v : Nat)
    (hBase : 0 < base)
    (digits : List UInt8) :
    v ≤ valueFrom base v digits := by
  induction digits generalizing v with
  | nil => exact Nat.le_refl v
  | cons b digits ih =>
      refine Nat.le_trans ?_ (ih _)
      exact Nat.le_trans (Nat.le_mul_of_pos_right v hBase)
        (Nat.le_add_right _ _)

/- A digit is less than its base. -/
theorem digitOf_lt
    {base d : Nat}
    {b : UInt8}
    (h : digitOf base b = some d) :
    d < base := by
  rw [digitOf, Option.filter_eq_some_iff] at h
  exact of_decide_eq_true h.2

end RadixLiteral

------------------------------------------------------------
-- Adding Digits
------------------------------------------------------------

namespace Number

open RadixLiteral

/- Sums below the limit do not wrap. -/
theorem toNat_sum
    {base v : UInt64}
    {d : Nat}
    (hMost : base.toNat ≤ 36)
    (hRoom : v.toNat ≤ 0xffffffff)
    (hDigit : d < base.toNat) :
    (v * base + UInt64.ofNat d).toNat =
      v.toNat * base.toNat + d := by
  have hProduct : v.toNat * base.toNat ≤ 0xffffffff * 36 :=
    Nat.mul_le_mul hRoom hMost
  rw [UInt64.toNat_add, UInt64.toNat_mul, UInt64.toNat_ofNat']
  omega

/-
  Digits are added up to the first byte that is none, unless
  their number is too great.
-/
theorem sumDigits_eq
    {base v : UInt64}
    (hBase : 0 < base.toNat)
    (hMost : base.toNat ≤ 36)
    (hRoom : v.toNat ≤ 0xffffffff)
    (text : List UInt8) :
    sumDigits base v text =
      if 0xffffffff <
          valueFrom base.toNat v.toNat
            (leading base.toNat text) then
        .error .tooLong
      else if leading base.toNat text = text then
        .ok (some (UInt64.ofNat
          (valueFrom base.toNat v.toNat text)))
      else
        .ok none := by
  have hFits : ¬ 0xffffffff < valueFrom base.toNat v.toNat [] :=
    Nat.not_lt.mpr hRoom
  induction text generalizing v with
  | nil =>
      have hNone : leading base.toNat [] = [] := rfl
      have hSame :
          UInt64.ofNat (valueFrom base.toNat v.toNat []) = v :=
        UInt64.ofNat_toNat
      rw [hNone, if_neg hFits, if_pos rfl, hSame]
      rfl
  | cons b text ih =>
      rw [sumDigits]
      cases hDigit : digitOf base.toNat b with
      | none =>
          rw [leading_none hDigit, if_neg hFits, if_neg nofun]
      | some d =>
          have hSum :=
            toNat_sum hMost hRoom (digitOf_lt hDigit)
          rw [leading_some hDigit, valueFrom_some hDigit,
            valueFrom_some hDigit, ← hSum]
          dsimp only
          split
          next hFull =>
            -- Too great a number stays too great.
            have hGreat : 0xffffffff < _ :=
              UInt64.lt_iff_toNat_lt.mp hFull
            have hLess :=
              le_valueFrom (v * base + UInt64.ofNat d).toNat
                hBase (leading base.toNat text)
            rw [if_pos (Nat.lt_of_lt_of_le hGreat hLess)]
          next hSmall =>
            have hLeft : ¬ 0xffffffff < _ :=
              fun h => hSmall (UInt64.lt_iff_toNat_lt.mpr h)
            rw [ih (Nat.not_lt.mp hLeft) hLeft]
            simp only [List.cons.injEq, true_and]

/- The word of a number is that of its low 32 bits. -/
theorem toUInt32_ofNat
    (v : Nat) :
    (UInt64.ofNat v).toUInt32 = UInt32.ofNat v := by
  apply UInt32.toNat_inj.mp
  rw [UInt64.toNat_toUInt32, UInt64.toNat_ofNat',
    UInt32.toNat_ofNat']
  omega

/- Digits in a base are read by the grammar. -/
theorem ofRadix_eq
    {base : Int64}
    {n : Nat}
    (hBase : base.toInt = n)
    (digits : List UInt8) :
    ofRadix base digits = read ⟨n, digits⟩ := by
  have hTwo : (2 : Int64).toInt = 2 := by decide
  have hMost : (36 : Int64).toInt = 36 := by decide
  have hLow : base < 2 ↔ n < 2 := by
    rw [Int64.lt_iff_toInt_lt, hBase, hTwo]
    omega
  have hHigh : 36 < base ↔ 36 < n := by
    rw [Int64.lt_iff_toInt_lt, hBase, hMost]
    omega
  have hOutside :
      (base < 2 ∨ 36 < base ∨ digits.isEmpty = true) ↔
        (n < 2 ∨ 36 < n ∨ digits.isEmpty = true) := by
    rw [hLow, hHigh]
  unfold ofRadix RadixLiteral.read
  dsimp only
  by_cases hRange : n < 2 ∨ 36 < n ∨ digits.isEmpty = true
  · rw [if_pos (hOutside.mpr hRange), if_pos hRange]
  · have hUnsigned : base.toUInt64.toNat = n := by
      have hNonneg : 0 ≤ base := by
        rw [Int64.le_iff_toInt_le, hBase]
        exact Int.natCast_nonneg n
      rw [Int64.toNat_toUInt64_of_le hNonneg,
        ← Int64.toNat_toInt, hBase, Int.toNat_natCast]
    have hSum :=
      @sumDigits_eq base.toUInt64 0 (by omega) (by omega)
        (by decide) digits
    have hZero : (0 : UInt64).toNat = 0 := rfl
    rw [hUnsigned, hZero] at hSum
    rw [if_neg (mt hOutside.mp hRange), if_neg hRange, hSum]
    unfold valueOf
    by_cases hFull : 0xffffffff < valueFrom n 0 (leading n digits)
    · rw [if_pos hFull, if_pos hFull]
    · rw [if_neg hFull, if_neg hFull]
      by_cases hAll : leading n digits = digits
      · rw [if_pos hAll, if_pos hAll]
        dsimp only
        rw [toUInt32_ofNat]
      · rw [if_neg hAll, if_neg hAll]

end Number

------------------------------------------------------------
-- Decimal Literals
------------------------------------------------------------

namespace Decimal

/- Nothing stands behind a sign and digits. -/
def isPlain
    (token : List UInt8) : Bool :=
  ((Sign.split token).2.dropWhile isDigit).isEmpty

/- The value of a literal without fraction and exponent. -/
def whole
    (d : Decimal) : Int :=
  Ieee.Value.signed d.negative (decimalValue d.digits)

/-
  The number of a decimal literal. A plain literal within the
  range of integers is an integer, any other is a real.
-/
def toNumber
    (plain : Bool)
    (d : Decimal) : Number :=
  if plain = true ∧ -0x80000000 ≤ d.whole ∧
      d.whole ≤ 0x7fffffff then
    .integer (Int32.ofInt d.whole)
  else
    .real d.toReal

end Decimal

/-
  What a token is by the grammar. A token that is no number is
  a name.
-/
def Number.ofGrammar
    (token : List UInt8) : Except Cause (Option Number) :=
  match RadixLiteral.ofLiteral? token with
  | some l => l.read
  | none =>
      .ok ((Decimal.ofLiteral? token).map
        (Decimal.toNumber (Decimal.isPlain token)))

end PostScript
