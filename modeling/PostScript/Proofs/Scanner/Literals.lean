import PostScript.Proofs.Numeric.Radix
import PostScript.Proofs.Numeric.Rounded
import PostScript.Proofs.Scanner.Words

/-
  This file shows which tokens are numbers, what numbers they
  are, and that all other tokens are scanned as names.

  Main results:
    * `Number.ofLiteral_decimal`
    * `Number.ofLiteral_radix`
-/

namespace PostScript.Number

open Ieee
open RadixLiteral

------------------------------------------------------------
-- Decimal Literals
------------------------------------------------------------

/- A plain literal in the range of integers is a numeral. -/
theorem toNumber_eq_real
    {token : List UInt8}
    {d : Decimal}
    (hPlain :
      Decimal.isPlain token = true → Numeral token d.whole)
    (hOther : ∀ v : Int32, ¬ Numeral token v.toInt) :
    d.toNumber (Decimal.isPlain token) =
      .real ⟨d.toSingle, 0⟩ := by
  rw [Decimal.toNumber, if_neg, d.toReal_eq]
  rintro ⟨hIsPlain, hLower, hUpper⟩
  have hInt : (Int32.ofInt d.whole).toInt = d.whole :=
    Int32.toInt_ofInt_of_le hLower (Int.lt_add_one_of_le hUpper)
  exact hOther (Int32.ofInt d.whole)
    (hInt.symm ▸ hPlain hIsPlain)

/- Without a number sign a token is a decimal literal or none. -/
theorem ofLiteral_of_not_mem
    {token : List UInt8}
    (hSign : code '#' ∉ token) :
    ofLiteral token =
      .ok ((Decimal.ofLiteral? token).map
        (Decimal.toNumber (Decimal.isPlain token))) := by
  rw [ofLiteral_eq, ofGrammar, ofLiteral?_of_not_mem hSign]

/-
  A decimal literal that is no integer is the real of its
  parts.
-/
theorem ofLiteral_of_spells
    {token : List UInt8}
    {x : DecimalParts}
    (hSign : code '#' ∉ token)
    (hSpells : SpellsDecimal token x)
    (hOther : ∀ v : Int32, ¬ Numeral token v.toInt) :
    ∃ d : Decimal,
      ofLiteral token = .ok (some (.real ⟨d.toSingle, 0⟩)) ∧
        d.negative = x.negative ∧ d.digits = x.digits ∧
        d.fraction = x.fraction ∧
        d.exponent =
          Value.signed x.downward
            (Decimal.exponentValue x.exponent) := by
  refine ⟨⟨x.negative, x.digits, x.fraction,
    Value.signed x.downward
      (Decimal.exponentValue x.exponent)⟩, ?_,
    rfl, rfl, rfl, rfl⟩
  rw [ofLiteral_of_not_mem hSign, hSpells.ofLiteral?,
    Option.map_some, toNumber_eq_real hSpells.numeral hOther]

/-
  What a token without a number sign is; it is never refused.
  The numeral of a 32-bit integer is this integer. Any other
  decimal literal is a real: its magnitude with the exponent
  that counts, rounded to double and then to single precision.
  This is what its exact magnitude is rounded to, too, unless
  the exponent is at least 655360 and more than 65490 digits
  stand before it. Any other such token is a name.
-/
theorem ofLiteral_decimal
    {token : List UInt8}
    (hSign : code '#' ∉ token) :
    (∃ n, ofLiteral token = .ok n) ∧
      (∀ v : Int32, Numeral token v.toInt →
        ofLiteral token = .ok (some (.integer v))) ∧
      (∀ x, SpellsDecimal token x →
        (∀ v : Int32, ¬ Numeral token v.toInt) →
          ∃ bits e,
            ofLiteral token = .ok (some (.real ⟨bits, 0⟩)) ∧
              Counted x.exponent e ∧
              RoundsTwice x.negative (x.value e) bits ∧
              (decimalValue x.exponent < 655360 ∨
                  (x.digits ++ x.fraction).length ≤ 65490 →
                RoundsTwice x.negative
                  (x.value (decimalValue x.exponent))
                  bits)) ∧
      ((∀ x, ¬ SpellsDecimal token x) →
        ofLiteral token = .ok none ∧
          ∀ cfg, IsToken cfg token →
            Scanner.ScansAsName cfg token) := by
  refine ⟨?_, ?_, ?_, ?_⟩
  · exact ⟨_, ofLiteral_of_not_mem hSign⟩
  · exact fun v hNumeral => ofLiteral_numeral hNumeral
  · intro x hSpells hOther
    rcases ofLiteral_of_spells hSign hSpells hOther with
      ⟨d, hReal, hNegative, hDigits, hFraction, hExponent⟩
    have hCounted :=
      counted_exponentValue hSpells.digit_exponent
    have hRounds := d.roundsTwice
    have hPlace :
        d.lastPlace =
          Value.signed x.downward
              (Decimal.exponentValue x.exponent) -
            x.fraction.length := by
      rw [Decimal.lastPlace, hExponent, hFraction]
    rw [hNegative, hDigits, hFraction, hPlace] at hRounds
    exact ⟨d.toSingle, _, hReal, hCounted, hRounds,
      DecimalParts.roundsTwice_exact hSpells.digit hCounted
        hRounds⟩
  · intro hOther
    have hNone : ofLiteral token = .ok none := by
      rw [ofLiteral_of_not_mem hSign]
      cases hRead : Decimal.ofLiteral? token with
      | none => rfl
      | some d =>
          rcases exists_spellsDecimal hRead with ⟨x, hSpells⟩
          exact absurd hSpells (hOther x)
    exact ⟨hNone, fun cfg hToken =>
      Scanner.scansAsName hToken hNone⟩

/-
  Minus seven is an integer, ten to the 39th is a real, and
  `3db` is a name.
-/
theorem ofLiteral_decimal_cases :
    ofLiteral (Bytes.ofText "-007").toList =
        .ok (some (.integer (-7))) ∧
      (∃ bits e,
        ofLiteral (Bytes.ofText "1e39").toList =
            .ok (some (.real ⟨bits, 0⟩)) ∧
          Counted (Bytes.ofText "39").toList e ∧
          RoundsTwice false
            (DecimalParts.value
              ⟨false, (Bytes.ofText "1").toList, [], false,
                (Bytes.ofText "39").toList⟩ e) bits) ∧
      ofLiteral (Bytes.ofText "3db").toList = .ok none := by
  have hSeven :
      Numeral (Bytes.ofText "-007").toList
        (-7 : Int32).toInt :=
    @Numeral.negative (Bytes.ofText "007").toList
      ⟨by decide +kernel, by decide +kernel⟩
  have hOne : IsDigits (Bytes.ofText "1").toList :=
    ⟨by decide +kernel, by decide +kernel⟩
  have hPlaces : IsDigits (Bytes.ofText "39").toList :=
    ⟨by decide +kernel, by decide +kernel⟩
  have hSpells :
      SpellsDecimal (Bytes.ofText "1e39").toList
        ⟨false, (Bytes.ofText "1").toList, [], false,
          (Bytes.ofText "39").toList⟩ :=
    .parts .none (.whole hOne) (.marked (.inl rfl) .none hPlaces)
  have hOther :
      ∀ v : Int32,
        ¬ Numeral (Bytes.ofText "1e39").toList v.toInt := by
    intro v h
    exact absurd (h.mem (code 'e') (by decide +kernel))
      (by decide +kernel)
  have hName :
      ∀ x, ¬ SpellsDecimal (Bytes.ofText "3db").toList x := by
    intro x h
    have hRead := h.ofLiteral?
    have hNone :
        Decimal.ofLiteral? (Bytes.ofText "3db").toList =
          none :=
      rfl
    rw [hNone] at hRead
    contradiction
  refine ⟨?_, ?_, ?_⟩
  · exact (ofLiteral_decimal (by decide +kernel)).2.1 (-7)
      hSeven
  · rcases (ofLiteral_decimal (by decide +kernel)).2.2.1 _
        hSpells hOther with
      ⟨bits, e, hReal, hCounted, hRounds, -⟩
    exact ⟨bits, e, hReal, hCounted, hRounds⟩
  · exact ((ofLiteral_decimal (by decide +kernel)).2.2.2
      hName).1

/-
  Of the exponent 655360 only 65536 counts: behind a fraction
  of 65516 digits it makes ten to the 20th, although the exact
  number is past single precision.
-/
theorem ofLiteral_long_fraction :
    let zeros := List.replicate 65515 (code '0')
    let token :=
      code '0' :: code '.' :: (zeros ++ [code '1']) ++
        (Bytes.ofText "e655360").toList
    let x : DecimalParts :=
      ⟨false, [code '0'], zeros ++ [code '1'], false,
        (Bytes.ofText "655360").toList⟩
    code '#' ∉ token ∧ SpellsDecimal token x ∧
      (∀ v : Int32, ¬ Numeral token v.toInt) ∧
      ofLiteral token =
        .ok (some (.real ⟨0x60ad78ec, 0⟩)) ∧
      ¬ RoundsTwice x.negative
        (x.value (decimalValue x.exponent)) 0x60ad78ec := by
  intro zeros token x
  have hLength : x.fraction.length = 65516 := by
    change (zeros ++ [code '1']).length = 65516
    rw [List.length_append, List.length_replicate]
    rfl
  have hDigit : ∀ b ∈ zeros ++ [code '1'], isDigit b = true := by
    intro b hb
    rcases List.mem_append.mp hb with hb | hb
    · rw [List.eq_of_mem_replicate hb]
      decide
    · rw [List.mem_singleton.mp hb]
      decide
  have hValue :
      decimalValue (x.digits ++ x.fraction) = 1 := by
    change
      decimalValue
        (List.replicate 65516 (code '0') ++ [code '1']) = 1
    rw [decimalValue_concat, decimalValue_zeros]
    rfl
  have hZero : IsDigits [code '0'] :=
    ⟨by decide, by decide +kernel⟩
  have hPlaces : IsDigits (Bytes.ofText "655360").toList :=
    ⟨by decide +kernel, by decide +kernel⟩
  have hSpells : SpellsDecimal token x :=
    .parts .none (.pointed hZero hDigit)
      (.marked (.inl rfl) .none hPlaces)
  have hOther : ∀ v : Int32, ¬ Numeral token v.toInt := by
    intro v h
    exact absurd
      (h.mem (code '.') (List.mem_cons_of_mem _
        List.mem_cons_self))
      (by decide)
  have hSign := hSpells.number_sign
  refine ⟨hSign, hSpells, hOther, ?_, ?_⟩
  · rcases ofLiteral_of_spells hSign hSpells hOther with
      ⟨d, hReal, hNegative, hDigits, hFraction, hExponent⟩
    have hSignificand : d.significand = 1 := by
      rw [Decimal.significand, decimalByHalves_eq, hDigits,
        hFraction, hValue]
    have hPlace : d.lastPlace = 20 := by
      have hCounts :
          Decimal.exponentValue x.exponent = 65536 := by
        decide +kernel
      rw [Decimal.lastPlace, hExponent, hFraction, hLength,
        hCounts]
      rfl
    have hSingle : d.toSingle = 0x60ad78ec := by
      rw [Decimal.toSingle, Decimal.toDouble, hNegative,
        hSignificand, hPlace]
      decide +kernel
    rw [hReal, hSingle]
  · rintro ⟨a, b, hA, hB, hBits⟩
    have hGreat :
        (2 : ℚ) ^ (129 : Int) ≤
          x.value (decimalValue x.exponent) := by
      have hWhole : decimalValue x.exponent = 655360 := by
        decide +kernel
      rw [DecimalParts.value, hValue, hLength, hWhole,
        Nat.cast_one, one_mul]
      calc (2 : ℚ) ^ (129 : Int)
          ≤ (10 : ℚ) ^ (46 : Int) := by norm_num
        _ ≤ _ := by
            exact zpow_le_zpow_right₀ (by norm_num)
              (by decide +kernel)
    rw [eq_infinity_of_great hGreat hA hB] at hBits
    revert hBits
    decide +kernel

------------------------------------------------------------
-- Literals with a Base
------------------------------------------------------------

/-
  What a token with a number sign is. If digits that spell a
  base stand before the first number sign, and something
  behind it, the digits of this base that come next decide:
  if they spell a number of more than 32 bits, the token is
  refused, whatever follows them. If they do not, the token is
  an integer in two's complement where nothing follows them,
  and a name where something does. Any other such token is a
  name.
-/
theorem ofLiteral_radix
    {base digits : List UInt8}
    (hSign : code '#' ∉ base) :
    (IsBase base → digits ≠ [] →
      (0xffffffff <
          valueOf (decimalValue base)
            (leading (decimalValue base) digits) →
        ofLiteral (base ++ code '#' :: digits) =
          .error .tooLong) ∧
      (valueOf (decimalValue base)
            (leading (decimalValue base) digits) ≤
          0xffffffff →
        ((∀ b ∈ digits,
            (digitOf (decimalValue base) b).isSome = true) →
          ∃ v : Int32,
            ofLiteral (base ++ code '#' :: digits) =
                .ok (some (.integer v)) ∧
              v.toInt =
                (valueOf (decimalValue base) digits :
                  Int).bmod (2 ^ 32)) ∧
        ((¬ ∀ b ∈ digits,
            (digitOf (decimalValue base) b).isSome = true) →
          ofLiteral (base ++ code '#' :: digits) =
            .ok none))) ∧
      (¬ (IsBase base ∧ digits ≠ []) →
        ofLiteral (base ++ code '#' :: digits) = .ok none) ∧
      (ofLiteral (base ++ code '#' :: digits) = .ok none →
        ∀ cfg, IsToken cfg (base ++ code '#' :: digits) →
          Scanner.ScansAsName cfg
            (base ++ code '#' :: digits)) := by
  refine ⟨fun hBase hDigits => ⟨?_, fun hValue => ⟨?_, ?_⟩⟩,
    ?_, ?_⟩
  · exact ofLiteral_tooLong hBase hDigits
  · exact ofLiteral_integer hBase hDigits hValue
  · exact ofLiteral_stray hBase hDigits hValue
  · exact ofLiteral_invalid hSign
  · exact fun hNone cfg hToken =>
      Scanner.scansAsName hToken hNone

/-
  Two digits of base 16 are an integer, nine of them are too
  many, and a sign before the base makes a name.
-/
theorem ofLiteral_radix_sixteen :
    (∃ v : Int32,
      ofLiteral
          ((Bytes.ofText "16").toList ++
            code '#' :: (Bytes.ofText "fF").toList) =
          .ok (some (.integer v)) ∧
        v.toInt =
          (valueOf 16 (Bytes.ofText "fF").toList : Int).bmod
            (2 ^ 32)) ∧
      ofLiteral
          ((Bytes.ofText "016").toList ++
            code '#' :: (Bytes.ofText "100000000").toList) =
        .error .tooLong ∧
      ofLiteral
          ((Bytes.ofText "-16").toList ++
            code '#' :: (Bytes.ofText "F").toList) =
        .ok none := by
  have hBase : IsBase (Bytes.ofText "16").toList :=
    ⟨⟨by decide +kernel, by decide +kernel⟩,
      by decide +kernel, by decide +kernel⟩
  have hPadded : IsBase (Bytes.ofText "016").toList :=
    ⟨⟨by decide +kernel, by decide +kernel⟩,
      by decide +kernel, by decide +kernel⟩
  have hOther :
      ¬ (IsBase (Bytes.ofText "-16").toList ∧
        (Bytes.ofText "F").toList ≠ []) := by
    rintro ⟨h, -⟩
    exact absurd (h.digit (code '-') (by decide +kernel))
      (by decide +kernel)
  refine ⟨?_, ?_, ?_⟩
  · exact (((ofLiteral_radix (by decide +kernel)).1 hBase
      (by decide +kernel)).2 (by decide +kernel)).1
        (by decide +kernel)
  · exact ((ofLiteral_radix (by decide +kernel)).1 hPadded
      (by decide +kernel)).1 (by decide +kernel)
  · exact (ofLiteral_radix (by decide +kernel)).2.1 hOther

/-
  A letter that is no digit of base 16 does not make a name of
  nine digits.
-/
theorem ofLiteral_radix_letter :
    IsBase (Bytes.ofText "16").toList ∧
      (¬ ∀ b ∈ (Bytes.ofText "100000000g").toList,
        (digitOf 16 b).isSome = true) ∧
      ofLiteral
          ((Bytes.ofText "16").toList ++
            code '#' :: (Bytes.ofText "100000000g").toList) =
        .error .tooLong ∧
      ofLiteral
          ((Bytes.ofText "16").toList ++
            code '#' :: (Bytes.ofText "100000000g").toList) ≠
        .ok none := by
  have hBase : IsBase (Bytes.ofText "16").toList :=
    ⟨⟨by decide +kernel, by decide +kernel⟩,
      by decide +kernel, by decide +kernel⟩
  exact ⟨hBase, by decide +kernel, by decide +kernel,
    by decide +kernel⟩

end PostScript.Number
