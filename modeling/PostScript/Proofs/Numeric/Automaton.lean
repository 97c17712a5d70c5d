import Mathlib.Data.List.TakeWhile
import PostScript.Proofs.Numeric.Grammar

/-
  This file shows that reading a token byte by byte gives what
  the token is by the grammar of number literals. From each
  state it is known which texts lead to a number, and that the
  digits in front have been counted, unless there are too many
  of them for an integer.

  Key definitions include:
    * `LiteralScan.finish`
    * `LiteralScan.Counts`

  Main results:
    * `LiteralScan.run_digits`
    * `LiteralScan.finish_exponent`
    * `LiteralScan.finish_fraction`
    * `Number.ofLiteral_eq`
-/

namespace PostScript

namespace LiteralScan

variable {signed : Bool}
variable {token : List UInt8}

------------------------------------------------------------
-- Runs
------------------------------------------------------------

/- What a token is once its bytes have been read. -/
def finish
    (token : List UInt8) :
    Option LiteralScan → Except Cause (Option Number)
  | some s => s.conclude token
  | none => .ok none

/- One byte is read before the others. -/
theorem run_cons
    {i : Nat}
    {b : UInt8}
    {s s' : LiteralScan}
    {rest : List UInt8}
    (hState : s.state ≠ .radix)
    (hStep : step signed i b s = some s') :
    run signed i s (b :: rest) = run signed (i + 1) s' rest := by
  rw [run, if_neg hState, hStep]

/- Behind a byte that does not belong there nothing is. -/
theorem finish_cons
    {s : LiteralScan}
    (i : Nat)
    (b : UInt8)
    (rest : List UInt8)
    (hState : s.state ≠ .radix) :
    finish token (run signed i s (b :: rest)) =
      match step signed i b s with
      | some s' => finish token (run signed (i + 1) s' rest)
      | none => .ok none := by
  rw [run, if_neg hState]
  cases step signed i b s <;> rfl

/- Nothing is read behind a base. -/
theorem run_radix
    {s : LiteralScan}
    (i : Nat)
    (hState : s.state = .radix)
    (text : List UInt8) :
    run signed i s text = some s := by
  cases text with
  | nil => rfl
  | cons b rest => rw [run, if_pos hState]

------------------------------------------------------------
-- Digits in Front
------------------------------------------------------------

/- No digit is a sign. -/
theorem isSign_of_isDigit
    {b : UInt8}
    (h : isDigit b = true) :
    isSign b = false := by
  rw [isSign, Bool.or_eq_false_iff, beq_eq_false_iff_ne,
    beq_eq_false_iff_ne]
  constructor <;>
    · rintro rfl
      revert h
      decide

/- A digit is less than ten. -/
theorem toNat_sub_zero
    {b : UInt8}
    (h : isDigit b = true) :
    (b - code '0').toNat = b.toNat - '0'.toNat ∧
      b.toNat - '0'.toNat ≤ 9 := by
  rw [isDigit, isBetween, Bool.and_eq_true,
    decide_eq_true_iff, decide_eq_true_iff] at h
  have hLow : 48 ≤ b.toNat := UInt8.le_iff_toNat_le.mp h.1
  have hHigh : b.toNat ≤ 57 := UInt8.le_iff_toNat_le.mp h.2
  have hZero : '0'.toNat = 48 := rfl
  rw [UInt8.toNat_sub_of_le _ _ h.1]
  exact ⟨rfl, by omega⟩

/-
  The digits in front spell a number. It is their value unless
  it is past the range of integers, as is noticed.
-/
structure Counts
    (s : LiteralScan)
    (n : Nat) : Prop where
  exact :
    s.overflow = false →
      s.value.toInt = n ∧ n ≤ 0x80000000
  great : s.overflow = true → 0x80000000 < n

/- At first there are none. -/
theorem counts_zero
    {s : LiteralScan}
    (hValue : s.value = 0)
    (hFits : s.overflow = false) :
    s.Counts 0 where
  exact := by
    intro _
    rw [hValue]
    decide
  great := by
    intro h
    rw [hFits] at h
    contradiction

/- One more digit behind an integer does not wrap. -/
theorem toInt_sum
    {v : Int64}
    {n d : Nat}
    (hValue : v.toInt = n)
    (hRange : n ≤ 0x80000000)
    (hDigit : d ≤ 9) :
    (v * 10 + Int64.ofNat d).toInt = (n * 10 + d : Nat) := by
  have hTen : (10 : Int64).toInt = 10 := by decide
  have hProduct : (v * 10).toInt = (n * 10 : Nat) := by
    rw [Int64.toInt_mul, hValue, hTen]
    exact Int.bmod_eq_of_le (by omega) (by omega)
  rw [Int64.toInt_add, hProduct,
    Int64.toInt_ofNat_of_lt (by omega)]
  exact Int.bmod_eq_of_le (by omega) (by omega)

/- One more digit is counted. -/
theorem Counts.countDigit
    {s : LiteralScan}
    {n : Nat}
    {b : UInt8}
    (h : s.Counts n)
    (hDigit : isDigit b = true) :
    (s.countDigit b).Counts (addDigit n b) := by
  rcases toNat_sub_zero hDigit with ⟨hSame, hLess⟩
  unfold LiteralScan.countDigit addDigit
  cases hOverflow : s.overflow with
  | true =>
      have hGreat := h.great hOverflow
      rw [if_pos rfl]
      exact ⟨nofun, fun _ => by omega⟩
  | false =>
      rcases h.exact hOverflow with ⟨hValue, hRange⟩
      have hSum := toInt_sum hValue hRange hLess
      have hLimit : (0x80000000 : Int64).toInt = 0x80000000 := by
        decide
      rw [if_neg Bool.false_ne_true, hSame]
      constructor
      · intro hFits
        rw [decide_eq_false_iff_not, Int64.lt_iff_toInt_lt,
          hSum, hLimit] at hFits
        exact ⟨hSum, by omega⟩
      · intro hFull
        rw [decide_eq_true_iff, Int64.lt_iff_toInt_lt, hSum,
          hLimit] at hFull
        omega

/- A digit in front is read. -/
theorem step_digit
    {s : LiteralScan}
    {b : UInt8}
    (i : Nat)
    (hState :
      s.state = .start ∨ s.state = .sign ∨ s.state = .integer)
    (hDigit : isDigit b = true) :
    step signed i b s = some (s.countDigit b) := by
  rcases hState with h | h | h
  · rw [step, h]
    dsimp only
    rw [isSign_of_isDigit hDigit, if_neg Bool.false_ne_true,
      if_pos hDigit]
  all_goals
    rw [step, h]
    exact if_pos hDigit

/- Behind it an integer may end. -/
theorem state_countDigit
    (s : LiteralScan)
    (b : UInt8) :
    (s.countDigit b).state = .integer ∧
      (s.countDigit b).negative = s.negative := by
  unfold countDigit
  split <;> exact ⟨rfl, rfl⟩

/- Further digits are read and counted. -/
theorem run_integer
    {digits : List UInt8}
    {i n : Nat}
    {s : LiteralScan}
    (rest : List UInt8)
    (hDigits : ∀ b ∈ digits, isDigit b = true)
    (hState : s.state = .integer)
    (hCounts : s.Counts n) :
    ∃ s',
      run signed i s (digits ++ rest) =
          run signed (i + digits.length) s' rest ∧
        s'.state = .integer ∧ s'.negative = s.negative ∧
          s'.Counts (digits.foldl addDigit n) := by
  induction digits generalizing i n s with
  | nil => exact ⟨s, rfl, hState, rfl, hCounts⟩
  | cons b digits ih =>
      rcases List.forall_mem_cons.mp hDigits with ⟨hb, hMore⟩
      rcases state_countDigit s b with ⟨hNext, hSame⟩
      rcases @ih (i + 1) _ _ hMore hNext
          (hCounts.countDigit hb) with
        ⟨s', hRun, hLast, hNegative, hCounted⟩
      refine ⟨s', ?_, hLast, hNegative.trans hSame, hCounted⟩
      have hLength :
          i + 1 + digits.length = i + (b :: digits).length := by
        rw [List.length_cons]
        omega
      rw [List.cons_append,
        run_cons (by rw [hState]; decide)
          (step_digit i (.inr (.inr hState)) hb),
        hRun, hLength]

/- So are the first ones. -/
theorem run_digits
    {digits : List UInt8}
    {i : Nat}
    {s : LiteralScan}
    (rest : List UInt8)
    (hSome : digits ≠ [])
    (hDigits : ∀ b ∈ digits, isDigit b = true)
    (hState : s.state = .start ∨ s.state = .sign)
    (hCounts : s.Counts 0) :
    ∃ s',
      run signed i s (digits ++ rest) =
          run signed (i + digits.length) s' rest ∧
        s'.state = .integer ∧ s'.negative = s.negative ∧
          s'.Counts (decimalValue digits) := by
  cases digits with
  | nil => exact absurd rfl hSome
  | cons b digits =>
      rcases List.forall_mem_cons.mp hDigits with ⟨hb, hMore⟩
      rcases state_countDigit s b with ⟨hNext, hSame⟩
      rcases @run_integer signed digits (i + 1) _ _ rest hMore
          hNext (hCounts.countDigit hb) with
        ⟨s', hRun, hLast, hNegative, hCounted⟩
      refine ⟨s', ?_, hLast, hNegative.trans hSame, hCounted⟩
      have hOther : s.state ≠ .radix := by
        rcases hState with h | h <;> rw [h] <;> decide
      have hFirst :
          step signed i b s = some (s.countDigit b) :=
        step_digit i (hState.imp_right .inl) hb
      have hLength :
          i + 1 + digits.length = i + (b :: digits).length := by
        rw [List.length_cons]
        omega
      rw [List.cons_append, run_cons hOther hFirst, hRun,
        hLength]

------------------------------------------------------------
-- Exponents
------------------------------------------------------------

/- A text is read as a real, or the token is a name. -/
def accept
    (token : List UInt8)
    (isReal : Bool) : Except Cause (Option Number) :=
  if isReal then
    Number.ofDecimal token
  else
    .ok none

/- Behind the digits of an exponent only digits may stand. -/
theorem finish_exponentDigits
    {s : LiteralScan}
    (i : Nat)
    (hState : s.state = .exponentDigits)
    (text : List UInt8) :
    finish token (run signed i s text) =
      accept token (text.all isDigit) := by
  induction text generalizing i s with
  | nil =>
      rw [run, finish, conclude, hState]
      rfl
  | cons b rest ih =>
      rw [finish_cons i b rest (by rw [hState]; decide), step,
        hState, List.all_cons]
      cases isDigit b with
      | true => exact ih (i + 1) rfl
      | false => rfl

/- Behind the sign of an exponent there must be some. -/
theorem finish_exponentSign
    {s : LiteralScan}
    (i : Nat)
    (hState : s.state = .exponentSign)
    (text : List UInt8) :
    finish token (run signed i s text) =
      accept token (!text.isEmpty && text.all isDigit) := by
  cases text with
  | nil =>
      rw [run, finish, conclude, hState]
      rfl
  | cons b rest =>
      rw [finish_cons i b rest (by rw [hState]; decide), step,
        hState, List.all_cons]
      cases isDigit b with
      | true => exact finish_exponentDigits (i + 1) rfl rest
      | false => rfl

/- A sign is split off, -/
theorem split_of_isSign
    {b : UInt8}
    (h : isSign b = true)
    (rest : List UInt8) :
    Sign.split (b :: rest) =
      (if b == code '-' then .minus else .plus, rest) := by
  rw [Sign.split]
  by_cases hPlus : (b == code '+') = true
  · rw [if_pos hPlus]
    rw [beq_iff_eq] at hPlus
    subst hPlus
    rfl
  · rw [isSign, Bool.or_eq_true, or_iff_right hPlus] at h
    rw [if_neg hPlus, if_pos h, if_pos h]

/- and no other byte is. -/
theorem split_of_not_isSign
    {b : UInt8}
    (h : isSign b = false)
    (rest : List UInt8) :
    Sign.split (b :: rest) = (.none, b :: rest) := by
  rw [isSign, Bool.or_eq_false_iff] at h
  rw [Sign.split, h.1, h.2, if_neg Bool.false_ne_true,
    if_neg Bool.false_ne_true]

/- An exponent has digits, and nothing else behind its sign. -/
theorem isSome_exponentOf?
    {mark : UInt8}
    (hMark : isMark mark = true)
    (text : List UInt8) :
    (Decimal.exponentOf? (mark :: text)).isSome =
      (!(Sign.split text).2.isEmpty &&
        (Sign.split text).2.all isDigit) := by
  unfold isMark at hMark
  rw [Decimal.exponentOf?, if_pos hMark]
  rcases Sign.split text with ⟨sign, digits⟩
  dsimp only
  rw [← Bool.not_not (!digits.isEmpty && digits.all isDigit),
    Bool.not_and, Bool.not_not]
  cases digits.isEmpty || !digits.all isDigit with
  | true => rfl
  | false =>
      rw [if_neg Bool.false_ne_true]
      split <;> rfl

/- Behind the mark of an exponent its grammar decides. -/
theorem finish_exponent
    {mark : UInt8}
    {s : LiteralScan}
    (i : Nat)
    (hMark : isMark mark = true)
    (hState : s.state = .exponent)
    (text : List UInt8) :
    finish token (run signed i s text) =
      accept token
        (Decimal.exponentOf? (mark :: text)).isSome := by
  rw [isSome_exponentOf? hMark]
  cases text with
  | nil =>
      rw [run, finish, conclude, hState]
      rfl
  | cons b rest =>
      rw [finish_cons i b rest (by rw [hState]; decide), step,
        hState]
      dsimp only
      cases hSign : isSign b with
      | true =>
          rw [split_of_isSign hSign]
          exact finish_exponentSign (i + 1) rfl rest
      | false =>
          rw [split_of_not_isSign hSign, List.all_cons]
          cases isDigit b with
          | true => exact finish_exponentDigits (i + 1) rfl rest
          | false => rfl

/- Nothing else stands behind the mantissa of a real. -/
theorem exponentOf?_of_not_isMark
    {b : UInt8}
    (h : isMark b = false)
    (rest : List UInt8) :
    Decimal.exponentOf? (b :: rest) = none := by
  unfold isMark at h
  rw [Decimal.exponentOf?, h, if_neg Bool.false_ne_true]

------------------------------------------------------------
-- Fractions
------------------------------------------------------------

/- Behind a point there may be digits and an exponent. -/
theorem finish_fraction
    {s : LiteralScan}
    (i : Nat)
    (hState : s.state = .fraction)
    (text : List UInt8) :
    finish token (run signed i s text) =
      accept token
        (Decimal.exponentOf?
          (text.dropWhile isDigit)).isSome := by
  induction text generalizing i with
  | nil =>
      rw [run, finish, conclude, hState]
      rfl
  | cons b rest ih =>
      rw [finish_cons i b rest (by rw [hState]; decide), step,
        hState, List.dropWhile_cons]
      dsimp only
      cases isDigit b with
      | true => exact ih (i + 1)
      | false =>
          cases hMark : isMark b with
          | true => exact finish_exponent (i + 1) hMark rfl rest
          | false =>
              have hNone := exponentOf?_of_not_isMark hMark rest
              simp only [Bool.false_eq_true, if_false, hNone]
              rfl

/- A point in front needs a digit behind it. -/
theorem finish_dot
    {s : LiteralScan}
    (i : Nat)
    (hState : s.state = .dot)
    (text : List UInt8) :
    finish token (run signed i s text) =
      accept token
        (!(text.takeWhile isDigit).isEmpty &&
          (Decimal.exponentOf?
            (text.dropWhile isDigit)).isSome) := by
  cases text with
  | nil =>
      rw [run, finish, conclude, hState]
      rfl
  | cons b rest =>
      rw [finish_cons i b rest (by rw [hState]; decide), step,
        hState, List.takeWhile_cons, List.dropWhile_cons]
      dsimp only
      cases isDigit b with
      | true => exact finish_fraction (i + 1) rfl rest
      | false => rfl

------------------------------------------------------------
-- Integers
------------------------------------------------------------

/- The text of a decimal literal is read as its real. -/
theorem ofDecimal_eq
    {d : Decimal}
    (hRead : Decimal.ofLiteral? token = some d) :
    Number.ofDecimal token = .ok (some (.real d.toReal)) := by
  rw [Number.ofDecimal, hRead]

/- What is accepted is a real, and what is not is a name. -/
theorem accept_isSome
    {x : Option Decimal}
    (hRead : Decimal.ofLiteral? token = x) :
    accept token x.isSome =
      .ok (x.map (Decimal.toNumber false)) := by
  cases x with
  | none => rfl
  | some d =>
      have hReal : d.toNumber false = .real d.toReal :=
        if_neg (fun h => Bool.false_ne_true h.1)
      rw [Option.map_some, hReal, ← ofDecimal_eq hRead]
      rfl

/- The value of digits in front is negated without wrapping. -/
theorem Counts.toInt_signed
    {s : LiteralScan}
    {n : Nat}
    (h : s.Counts n)
    (hFits : s.overflow = false) :
    (if s.negative then -s.value else s.value).toInt =
      Ieee.Value.signed s.negative n := by
  rcases h.exact hFits with ⟨hValue, hRange⟩
  cases s.negative with
  | false => exact hValue
  | true =>
      rw [if_pos rfl, Int64.toInt_neg, hValue]
      exact Int.bmod_eq_of_le (by omega) (by omega)

/- Digits in front alone are an integer, unless too many. -/
theorem conclude_integer
    {s : LiteralScan}
    {d : Decimal}
    (hState : s.state = .integer)
    (hCounts : s.Counts (decimalValue d.digits))
    (hNegative : s.negative = d.negative)
    (hRead : Decimal.ofLiteral? token = some d) :
    s.conclude token = .ok (some (d.toNumber true)) := by
  rw [conclude, hState]
  dsimp only
  unfold Decimal.toNumber
  cases hOverflow : s.overflow with
  | true =>
      have hGreat := hCounts.great hOverflow
      have hOutside :
          ¬ (true = true ∧ -0x80000000 ≤ d.whole ∧
            d.whole ≤ 0x7fffffff) := by
        unfold Decimal.whole Ieee.Value.signed
        split <;> omega
      rw [if_pos rfl, if_neg hOutside, ofDecimal_eq hRead]
  | false =>
      have hWhole :
          (if s.negative then -s.value else s.value).toInt =
            d.whole := by
        rw [hCounts.toInt_signed hOverflow, hNegative]
        rfl
      rw [if_neg Bool.false_ne_true]
      generalize
        (if s.negative then -s.value else s.value) = v at *
      have hLow : (-0x80000000 : Int64).toInt = -0x80000000 := by
        decide
      have hHigh : (0x7fffffff : Int64).toInt = 0x7fffffff := by
        decide
      have hRange :
          (-0x80000000 ≤ v ∧ v ≤ 0x7fffffff) ↔
            (true = true ∧ -0x80000000 ≤ d.whole ∧
              d.whole ≤ 0x7fffffff) := by
        rw [Int64.le_iff_toInt_le, Int64.le_iff_toInt_le, hLow,
          hHigh, hWhole]
        simp only [true_and]
      by_cases hInside :
          true = true ∧ -0x80000000 ≤ d.whole ∧
            d.whole ≤ 0x7fffffff
      · have hSame : v.toInt32 = Int32.ofInt d.whole := by
          rw [← hWhole, ← Int64.toInt32_ofInt,
            Int64.ofInt_toInt]
        rw [if_pos (hRange.mpr hInside), if_pos hInside, hSame]
      · rw [if_neg (mt hRange.mp hInside), if_neg hInside,
          ofDecimal_eq hRead]

------------------------------------------------------------
-- Literals
------------------------------------------------------------

/- Behind a point there may be an exponent. -/
theorem isSome_afterDigits?_point
    (negative : Bool)
    (digits rest : List UInt8) :
    (Decimal.afterDigits? negative digits
        (code '.' :: rest)).isSome =
      (!(digits.isEmpty && (rest.takeWhile isDigit).isEmpty) &&
        (Decimal.exponentOf?
          (rest.dropWhile isDigit)).isSome) := by
  rw [Decimal.afterDigits?, if_pos (beq_self_eq_true _)]
  dsimp only
  cases digits.isEmpty &&
      (rest.takeWhile isDigit).isEmpty with
  | true => rfl
  | false =>
      rw [if_neg Bool.false_ne_true, Option.isSome_map]
      rfl

/- Without a point there must be digits before it. -/
theorem isSome_afterDigits?_other
    {b : UInt8}
    (negative : Bool)
    (digits rest : List UInt8)
    (hPoint : (b == code '.') = false) :
    (Decimal.afterDigits? negative digits (b :: rest)).isSome =
      (!digits.isEmpty &&
        (Decimal.exponentOf? (b :: rest)).isSome) := by
  rw [Decimal.afterDigits?, hPoint, if_neg Bool.false_ne_true]
  cases digits.isEmpty with
  | true => rfl
  | false =>
      rw [if_neg Bool.false_ne_true, Option.isSome_map]
      rfl

/- A base is read by its grammar. -/
theorem conclude_radix
    {n : Nat}
    {s : LiteralScan}
    {digits : List UInt8}
    (hState : s.state = .radix)
    (hCounts : s.Counts n)
    (hDrop : token.drop s.radixStart = digits) :
    s.conclude token = RadixLiteral.read ⟨n, digits⟩ := by
  rw [conclude, hState]
  dsimp only
  cases hOverflow : s.overflow with
  | true =>
      have hGreat := hCounts.great hOverflow
      rw [if_pos rfl, RadixLiteral.read,
        if_pos (.inr (.inl (by dsimp only; omega)))]
  | false =>
      rw [if_neg Bool.false_ne_true, hDrop]
      exact Number.ofRadix_eq (hCounts.exact hOverflow).1 digits

/-
  Behind digits in front, a base is read by its grammar, and
  anything else is a real or no number.
-/
theorem finish_integer
    {i n : Nat}
    {b : UInt8}
    {s : LiteralScan}
    {digits rest : List UInt8}
    (negative : Bool)
    (hState : s.state = .integer)
    (hCounts : s.Counts n)
    (hDigit : isDigit b = false)
    (hSome : digits.isEmpty = false)
    (hDrop : token.drop (i + 1) = rest) :
    finish token (run signed i s (b :: rest)) =
      if b == code '#' && !signed then
        RadixLiteral.read ⟨n, rest⟩
      else
        accept token
          (Decimal.afterDigits? negative digits
            (b :: rest)).isSome := by
  rw [finish_cons i b rest (by rw [hState]; decide), step,
    hState]
  dsimp only
  rw [hDigit]
  cases hPoint : b == code '.' with
  | true =>
      rw [beq_iff_eq] at hPoint
      subst hPoint
      rw [isSome_afterDigits?_point, hSome]
      exact finish_fraction (i + 1) rfl rest
  | false =>
      rw [isSome_afterDigits?_other _ _ _ hPoint, hSome]
      cases hMark : isMark b with
      | true =>
          have hOther : (b == code '#') = false := by
            rw [beq_eq_false_iff_ne]
            rintro rfl
            revert hMark
            decide
          rw [hOther]
          exact finish_exponent (i + 1) hMark rfl rest
      | false =>
          have hNone := exponentOf?_of_not_isMark hMark rest
          rw [hNone]
          cases b == code '#' && !signed with
          | true =>
              simp only [Bool.false_eq_true, if_false, if_true]
              have hBase :
                  Counts
                    { s with
                      state := .radix
                      radixStart := i + 1 } n :=
                ⟨hCounts.exact, hCounts.great⟩
              rw [run_radix (i + 1) rfl]
              exact conclude_radix rfl hBase hDrop
          | false => rfl

/-
  Without digits in front there must be a point and some digit
  behind it.
-/
theorem finish_empty
    {i : Nat}
    {b : UInt8}
    {s : LiteralScan}
    (negative : Bool)
    (hState : s.state = .start ∨ s.state = .sign)
    (hSign : s.state = .start → isSign b = false)
    (hDigit : isDigit b = false)
    (rest : List UInt8) :
    finish token (run signed i s (b :: rest)) =
      accept token
        (Decimal.afterDigits? negative [] (b :: rest)).isSome := by
  have hOther : s.state ≠ .radix := by
    rcases hState with h | h <;> rw [h] <;> decide
  have hStep :
      step signed i b s =
        if b == code '.' then
          some { s with state := .dot }
        else
          none := by
    rcases hState with h | h
    · rw [step, h]
      dsimp only
      rw [hSign h, hDigit, if_neg Bool.false_ne_true,
        if_neg Bool.false_ne_true]
    · rw [step, h]
      dsimp only
      rw [hDigit, if_neg Bool.false_ne_true]
  rw [finish_cons i b rest hOther, hStep]
  cases hPoint : b == code '.' with
  | true =>
      rw [beq_iff_eq] at hPoint
      subst hPoint
      rw [isSome_afterDigits?_point]
      exact finish_dot (i + 1) rfl rest
  | false =>
      rw [isSome_afterDigits?_other _ _ _ hPoint]
      rfl

/-
  A text that begins with digits has a base where a number
  sign comes next.
-/
theorem radix_digits
    {digits : List UInt8}
    (hDigits : ∀ b ∈ digits, isDigit b = true)
    {b : UInt8}
    (hDigit : isDigit b = false)
    (rest : List UInt8) :
    RadixLiteral.ofLiteral? (digits ++ b :: rest) =
      if b == code '#' && !digits.isEmpty then
        some ⟨decimalValue digits, rest⟩
      else
        none := by
  have hRest :
      ∀ c, (b :: rest).head? = some c → isDigit c = false := by
    intro c hHead
    cases hHead
    exact hDigit
  rcases span_digits hDigits hRest with ⟨hTake, hDrop⟩
  unfold RadixLiteral.ofLiteral?
  dsimp only
  rw [hTake, hDrop]

/- Digits alone have no base. -/
theorem radix_digits_nil
    {digits : List UInt8}
    (hDigits : ∀ b ∈ digits, isDigit b = true) :
    RadixLiteral.ofLiteral? digits = none := by
  unfold RadixLiteral.ofLiteral?
  rw [List.dropWhile_eq_nil_iff.mpr hDigits]

/-
  Behind a sign or none the grammar decides. What it says of
  the whole token is what it says of this text.
-/
theorem finish_eq
    {i : Nat}
    {s : LiteralScan}
    {digits rest : List UInt8}
    (hDigits : ∀ b ∈ digits, isDigit b = true)
    (hRest : ∀ b, rest.head? = some b → isDigit b = false)
    (hState : s.state = .start ∨ s.state = .sign)
    (hSign :
      s.state = .start →
        ∀ b, rest.head? = some b → digits = [] →
          isSign b = false)
    (hCounts : s.Counts 0)
    (hDrop : token.drop i = digits ++ rest)
    (hRadix :
      RadixLiteral.ofLiteral? token =
        if signed then
          none
        else
          RadixLiteral.ofLiteral? (digits ++ rest))
    (hRead :
      Decimal.ofLiteral? token =
        Decimal.afterDigits? s.negative digits rest)
    (hPlain : Decimal.isPlain token = rest.isEmpty) :
    finish token (run signed i s (digits ++ rest)) =
      Number.ofGrammar token := by
  unfold Number.ofGrammar
  rw [hRadix, hPlain]
  cases digits with
  | nil =>
      cases rest with
      | nil =>
          have hName : s.conclude token = .ok none := by
            rcases hState with h | h <;> rw [conclude, h]
          rw [hRead]
          cases signed <;> exact hName
      | cons b rest =>
          have hDigit := hRest b rfl
          have hNone :
              (if signed then none
                else RadixLiteral.ofLiteral?
                  ([] ++ b :: rest)) = none := by
            rw [radix_digits hDigits hDigit, List.isEmpty_nil,
              Bool.not_true, Bool.and_false,
              if_neg Bool.false_ne_true, ite_self]
          rw [hNone, List.nil_append,
            finish_empty s.negative hState
              (fun h => hSign h b rfl rfl) hDigit rest,
            accept_isSome hRead, hRead]
          rfl
  | cons c digits =>
      have hSome : (c :: digits).isEmpty = false := rfl
      rcases @run_digits signed (c :: digits) i s rest
          (List.cons_ne_nil c digits) hDigits hState
          hCounts with
        ⟨s', hRun, hInteger, hNegative, hCounted⟩
      rw [hRun]
      cases rest with
      | nil =>
          have hNone :
              (if signed then none
                else RadixLiteral.ofLiteral?
                  (c :: digits ++ [])) = none := by
            rw [List.append_nil, radix_digits_nil hDigits,
              ite_self]
          rw [hNone, hRead]
          exact conclude_integer hInteger hCounted hNegative
            hRead
      | cons b rest =>
          have hBehind :
              token.drop (i + (c :: digits).length + 1) =
                rest := by
            rw [Nat.add_assoc, ← List.drop_drop, hDrop,
              ← List.drop_drop, List.drop_left]
            rfl
          rw [finish_integer s.negative hInteger hCounted
              (hRest b rfl) hSome hBehind,
            accept_isSome hRead, hRead,
            radix_digits hDigits (hRest b rfl), hSome]
          cases signed with
          | true =>
              rw [Bool.not_true, Bool.and_false]
              rfl
          | false =>
              rw [Bool.not_false, Bool.and_true]
              cases b == code '#' <;> rfl

/- Digits in front and what comes behind them. -/
theorem exists_digits
    (text : List UInt8) :
    ∃ digits rest,
      text = digits ++ rest ∧
        text.takeWhile isDigit = digits ∧
        text.dropWhile isDigit = rest ∧
        (∀ b ∈ digits, isDigit b = true) ∧
        ∀ b, rest.head? = some b → isDigit b = false := by
  refine ⟨_, _, List.takeWhile_append_dropWhile.symm, rfl,
    rfl, fun _ => List.mem_takeWhile_imp, ?_⟩
  intro b hHead
  have hNot := List.head?_dropWhile_not isDigit text
  rw [hHead] at hNot
  exact hNot

/- No sign is a digit. -/
theorem isDigit_of_isSign
    {b : UInt8}
    (h : isSign b = true) :
    isDigit b = false := by
  cases hDigit : isDigit b with
  | false => rfl
  | true =>
      rw [isSign_of_isDigit hDigit] at h
      contradiction

/- Behind a sign the grammar decides. -/
theorem finish_signed
    {b : UInt8}
    (hSign : isSign b = true)
    (text : List UInt8) :
    finish (b :: text) (run true 0 {} (b :: text)) =
      Number.ofGrammar (b :: text) := by
  rcases exists_digits text with
    ⟨digits, rest, hText, hTake, hDrop, hDigits, hRest⟩
  have hStep :
      step true 0 b {} =
        some { state := .sign, negative := b == code '-' } :=
    if_pos hSign
  have hRadix : RadixLiteral.ofLiteral? (b :: text) = none := by
    have hNone :=
      radix_digits (List.forall_mem_nil _)
        (isDigit_of_isSign hSign) text
    rw [List.isEmpty_nil, Bool.not_true, Bool.and_false,
      if_neg Bool.false_ne_true] at hNone
    exact hNone
  have hRead :
      Decimal.ofLiteral? (b :: text) =
        Decimal.afterDigits? (b == code '-') digits rest := by
    rw [Decimal.ofLiteral?, split_of_isSign hSign]
    dsimp only
    rw [hTake, hDrop]
    cases b == code '-' <;> rfl
  have hPlain : Decimal.isPlain (b :: text) = rest.isEmpty := by
    rw [Decimal.isPlain, split_of_isSign hSign, hDrop]
  rw [run_cons (by decide) hStep]
  subst hText
  exact finish_eq hDigits hRest (.inr rfl) nofun
    (counts_zero rfl rfl) rfl hRadix hRead hPlain

/- Without a sign it does, too. -/
theorem finish_unsigned
    {text : List UInt8}
    (hSign : ∀ b, text.head? = some b → isSign b = false) :
    finish text (run false 0 {} text) =
      Number.ofGrammar text := by
  rcases exists_digits text with
    ⟨digits, rest, hText, hTake, hDrop, hDigits, hRest⟩
  have hSplit : Sign.split text = (.none, text) := by
    cases text with
    | nil => rfl
    | cons b rest => exact split_of_not_isSign (hSign b rfl) rest
  have hRead :
      Decimal.ofLiteral? text =
        Decimal.afterDigits? false digits rest := by
    rw [Decimal.ofLiteral?, hSplit]
    dsimp only
    rw [hTake, hDrop]
    rfl
  have hPlain : Decimal.isPlain text = rest.isEmpty := by
    rw [Decimal.isPlain, hSplit, hDrop]
  have hHead :
      ∀ b, rest.head? = some b → digits = [] →
        isSign b = false := by
    rintro b hb rfl
    rw [hText] at hSign
    exact hSign b hb
  subst hText
  exact finish_eq hDigits hRest (.inl rfl) (fun _ => hHead)
    (counts_zero rfl rfl) rfl rfl hRead hPlain

end LiteralScan

/- Reading byte by byte gives what the grammar says. -/
theorem Number.ofLiteral_eq
    (token : List UInt8) :
    ofLiteral token = ofGrammar token := by
  have hFinish :
      ofLiteral token =
        LiteralScan.finish token
          (LiteralScan.run
            (token.head?.any LiteralScan.isSign) 0 {}
            token) :=
    rfl
  rw [hFinish]
  cases token with
  | nil => rfl
  | cons b rest =>
      rw [List.head?_cons, Option.any_some]
      cases hSign : LiteralScan.isSign b with
      | true => exact LiteralScan.finish_signed hSign rest
      | false =>
          apply LiteralScan.finish_unsigned
          intro c hHead
          cases hHead
          exact hSign

end PostScript
