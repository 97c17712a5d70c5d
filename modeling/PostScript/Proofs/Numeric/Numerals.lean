import PostScript.Proofs.Numeric.Automaton

/-
  This file describes the decimal numerals of integers and
  shows that a numeral is read as the integer it spells.

  Key definitions include:
    * `Numeral`

  Main results:
    * `Number.ofLiteral_numeral`
-/

namespace PostScript

------------------------------------------------------------
-- Numerals
------------------------------------------------------------

/- One or more decimal digits. -/
structure IsDigits
    (digits : List UInt8) : Prop where
  nonempty : digits ≠ []
  digit : ∀ b ∈ digits, isDigit b = true

/- Decimal digits behind a sign, or without one. -/
inductive Numeral : List UInt8 → Int → Prop where
  | unsigned
      {digits : List UInt8}
      (hDigits : IsDigits digits) :
      Numeral digits (decimalValue digits)
  | positive
      {digits : List UInt8}
      (hDigits : IsDigits digits) :
      Numeral (code '+' :: digits) (decimalValue digits)
  | negative
      {digits : List UInt8}
      (hDigits : IsDigits digits) :
      Numeral (code '-' :: digits) (-decimalValue digits)

namespace IsDigits

variable {digits : List UInt8}

/- Digits are taken as a whole. -/
theorem takeWhile
    (h : IsDigits digits) :
    digits.takeWhile isDigit = digits :=
  List.takeWhile_eq_self_iff.mpr h.digit

/- Nothing is left behind them. -/
theorem dropWhile
    (h : IsDigits digits) :
    digits.dropWhile isDigit = [] :=
  List.dropWhile_eq_nil_iff.mpr h.digit

/- No sign stands before digits. -/
theorem split
    (h : IsDigits digits) :
    Sign.split digits = (.none, digits) := by
  cases digits with
  | nil => rfl
  | cons b digits =>
      have hDigit := h.digit b List.mem_cons_self
      have hPlus : ¬ (b == code '+') = true := by
        rw [beq_iff_eq]
        rintro rfl
        revert hDigit
        decide
      have hMinus : ¬ (b == code '-') = true := by
        rw [beq_iff_eq]
        rintro rfl
        revert hDigit
        decide
      rw [Sign.split, if_neg hPlus, if_neg hMinus]

/- Nothing else is read of a literal without a sign. -/
theorem afterDigits?
    (h : IsDigits digits)
    (negative : Bool) :
    Decimal.afterDigits? negative
        (digits.takeWhile isDigit)
        (digits.dropWhile isDigit) =
      some ⟨negative, digits, [], 0⟩ := by
  have hSome : ¬ digits.isEmpty = true := by
    rw [List.isEmpty_iff]
    exact h.nonempty
  rw [h.takeWhile, h.dropWhile, Decimal.afterDigits?,
    if_neg hSome]

end IsDigits

------------------------------------------------------------
-- Reading
------------------------------------------------------------

/- A numeral has no base. -/
theorem Numeral.not_radix
    {text : List UInt8}
    {n : Int}
    (h : Numeral text n) :
    RadixLiteral.ofLiteral? text = none := by
  cases h with
  | unsigned hDigits =>
      rw [RadixLiteral.ofLiteral?, hDigits.dropWhile]
  | positive _ => rfl
  | negative _ => rfl

/- A numeral is a plain literal of its value. -/
theorem Numeral.decimal
    {text : List UInt8}
    {n : Int}
    (h : Numeral text n) :
    Decimal.isPlain text = true ∧
      ∃ d, Decimal.ofLiteral? text = some d ∧ d.whole = n := by
  cases h with
  | unsigned hDigits =>
      refine ⟨?_, ⟨false, text, [], 0⟩, ?_, ?_⟩
      · rw [Decimal.isPlain, hDigits.split, hDigits.dropWhile]
        rfl
      · rw [Decimal.ofLiteral?, hDigits.split]
        exact hDigits.afterDigits? false
      · simp [Decimal.whole, Ieee.Value.signed]
  | @positive digits hDigits =>
      refine ⟨?_, ⟨false, digits, [], 0⟩, ?_, ?_⟩
      · exact List.isEmpty_iff.mpr hDigits.dropWhile
      · exact hDigits.afterDigits? false
      · simp [Decimal.whole, Ieee.Value.signed]
  | @negative digits hDigits =>
      refine ⟨?_, ⟨true, digits, [], 0⟩, ?_, ?_⟩
      · exact List.isEmpty_iff.mpr hDigits.dropWhile
      · exact hDigits.afterDigits? true
      · simp [Decimal.whole, Ieee.Value.signed]

/- A numeral of an integer is read as this integer. -/
theorem Number.ofLiteral_numeral
    {text : List UInt8}
    {v : Int32}
    (h : Numeral text v.toInt) :
    Number.ofLiteral text = .ok (some (.integer v)) := by
  rcases h.decimal with ⟨hPlain, d, hDecimal, hWhole⟩
  have hLower : -0x80000000 ≤ d.whole := by
    rw [hWhole]
    exact v.le_toInt
  have hUpper : d.whole ≤ 0x7fffffff := by
    rw [hWhole]
    exact Int.le_of_lt_add_one v.toInt_lt
  have hNumber : d.toNumber true = .integer v := by
    rw [Decimal.toNumber, if_pos ⟨rfl, hLower, hUpper⟩,
      hWhole, Int32.ofInt_toInt]
  rw [Number.ofLiteral_eq, Number.ofGrammar, h.not_radix,
    hDecimal, hPlain]
  dsimp only
  rw [Option.map_some, hNumber]

/- What holds of all 256 bytes holds of every byte. -/
theorem forall_byte
    {p : UInt8 → Prop}
    (h : ∀ n : Fin 256, p (UInt8.ofNat n.val))
    (b : UInt8) :
    p b := by
  have hByte := h ⟨b.toNat, b.toNat_lt⟩
  rwa [UInt8.ofNat_toNat] at hByte

/- A digit is regular. -/
theorem isRegular_of_isDigit
    {b : UInt8} :
    isDigit b = true → isRegular b = true :=
  forall_byte
    (p := fun b => isDigit b = true → isRegular b = true)
    (by decide +kernel) b

/- A numeral is made of digits and signs. -/
theorem Numeral.mem
    {text : List UInt8}
    {n : Int}
    (h : Numeral text n) :
    ∀ b ∈ text,
      isDigit b = true ∨ b = code '+' ∨ b = code '-' := by
  intro b hb
  cases h with
  | unsigned hDigits => exact .inl (hDigits.digit b hb)
  | positive hDigits =>
      rcases List.mem_cons.mp hb with rfl | hb
      · exact .inr (.inl rfl)
      · exact .inl (hDigits.digit b hb)
  | negative hDigits =>
      rcases List.mem_cons.mp hb with rfl | hb
      · exact .inr (.inr rfl)
      · exact .inl (hDigits.digit b hb)

/- All bytes of a numeral are regular. -/
theorem Numeral.regular
    {text : List UInt8}
    {n : Int}
    (h : Numeral text n) :
    ∀ b ∈ text, isRegular b = true := by
  intro b hb
  rcases h.mem b hb with hDigit | rfl | rfl
  · exact isRegular_of_isDigit hDigit
  · decide
  · decide

/- A numeral begins with a digit or a sign. -/
theorem Numeral.head
    {text : List UInt8}
    {n : Int}
    (h : Numeral text n) :
    ∃ b rest,
      text = b :: rest ∧
        (isDigit b = true ∨ b = code '+' ∨ b = code '-') := by
  cases h with
  | unsigned hDigits =>
      cases text with
      | nil => exact absurd rfl hDigits.nonempty
      | cons b rest =>
          exact ⟨b, rest, rfl,
            .inl (hDigits.digit b List.mem_cons_self)⟩
  | positive _ => exact ⟨_, _, rfl, .inr (.inl rfl)⟩
  | negative _ => exact ⟨_, _, rfl, .inr (.inr rfl)⟩

end PostScript
