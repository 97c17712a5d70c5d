import PostScript.Proofs.Numeric.Numerals

/-
  This file describes the texts of decimal literals, with the
  parts that they are made of, and shows that these texts and
  no others are read as decimal literals.

  Key definitions include:
    * `IsSign`
    * `IsMantissa`
    * `IsExponent`
    * `DecimalParts`
    * `SpellsDecimal`

  Main results:
    * `SpellsDecimal.ofLiteral?`
    * `exists_spellsDecimal`
    * `Decimal.ofLiteral?_number_sign`
-/

namespace PostScript

------------------------------------------------------------
-- Texts
------------------------------------------------------------

/- A sign or none, and whether it is a minus. -/
inductive IsSign : List UInt8 → Bool → Prop where
  | none :
      IsSign [] false
  | plus :
      IsSign [code '+'] false
  | minus :
      IsSign [code '-'] true

/-
  What stands in front of an exponent, and the digits before
  and behind the point. There are some on one side of it.
-/
inductive IsMantissa :
    List UInt8 → List UInt8 → List UInt8 → Prop where
  | whole
      {digits : List UInt8}
      (hDigits : IsDigits digits) :
      IsMantissa digits digits []
  | pointed
      {digits fraction : List UInt8}
      (hDigits : IsDigits digits)
      (hFraction : ∀ b ∈ fraction, isDigit b = true) :
      IsMantissa (digits ++ code '.' :: fraction)
        digits fraction
  | fraction
      {fraction : List UInt8}
      (hFraction : IsDigits fraction) :
      IsMantissa (code '.' :: fraction) [] fraction

/- An exponent or none, its sign and its digits. -/
inductive IsExponent :
    List UInt8 → Bool → List UInt8 → Prop where
  | none :
      IsExponent [] false []
  | marked
      {mark : UInt8}
      {sign digits : List UInt8}
      {downward : Bool}
      (hMark : mark = code 'e' ∨ mark = code 'E')
      (hSign : IsSign sign downward)
      (hDigits : IsDigits digits) :
      IsExponent (mark :: (sign ++ digits)) downward digits

/-
  The parts of a decimal literal: its sign, the digits before
  and behind the point, and the sign and the digits of its
  exponent.
-/
structure DecimalParts where
  negative : Bool
  digits : List UInt8
  fraction : List UInt8
  downward : Bool
  exponent : List UInt8

/- A text is a decimal literal with these parts. -/
inductive SpellsDecimal :
    List UInt8 → DecimalParts → Prop where
  | parts
      {sign mantissa exponent : List UInt8}
      {digits fraction places : List UInt8}
      {negative downward : Bool}
      (hSign : IsSign sign negative)
      (hMantissa : IsMantissa mantissa digits fraction)
      (hExponent : IsExponent exponent downward places) :
      SpellsDecimal (sign ++ (mantissa ++ exponent))
        ⟨negative, digits, fraction, downward, places⟩

------------------------------------------------------------
-- Bytes
------------------------------------------------------------

/- Exponents do not begin with a digit. -/
theorem IsExponent.head
    {text digits : List UInt8}
    {downward : Bool}
    (h : IsExponent text downward digits) :
    ∀ b, text.head? = some b → isDigit b = false := by
  intro b hHead
  cases h with
  | none => cases hHead
  | marked hMark hSign hDigits =>
      cases hHead
      rcases hMark with rfl | rfl <;> decide

/- Neither a digit nor a point is a sign. -/
theorem IsMantissa.head
    {text digits fraction : List UInt8}
    (h : IsMantissa text digits fraction) :
    ∃ b rest, text = b :: rest ∧
      b ≠ code '+' ∧ b ≠ code '-' := by
  have hDigit :
      ∀ b, isDigit b = true → b ≠ code '+' ∧ b ≠ code '-' := by
    intro b hb
    constructor <;>
      · rintro rfl
        revert hb
        decide
  cases h with
  | whole hDigits =>
      cases text with
      | nil => exact absurd rfl hDigits.nonempty
      | cons b rest =>
          exact ⟨b, rest, rfl,
            hDigit b (hDigits.digit b List.mem_cons_self)⟩
  | pointed hDigits _ =>
      cases digits with
      | nil => exact absurd rfl hDigits.nonempty
      | cons b rest =>
          exact ⟨b, _, rfl,
            hDigit b (hDigits.digit b List.mem_cons_self)⟩
  | fraction _ => exact ⟨_, _, rfl, by decide, by decide⟩

------------------------------------------------------------
-- Signs and Exponents
------------------------------------------------------------

/- A sign is split off what stands behind it. -/
theorem IsSign.split
    {sign rest : List UInt8}
    {negative : Bool}
    (h : IsSign sign negative)
    (hRest :
      ∀ b, rest.head? = some b →
        b ≠ code '+' ∧ b ≠ code '-') :
    ∃ s, Sign.split (sign ++ rest) = (s, rest) ∧
      decide (s = .minus) = negative := by
  cases h with
  | none =>
      cases rest with
      | nil => exact ⟨.none, rfl, rfl⟩
      | cons b rest =>
          rcases hRest b rfl with ⟨hPlus, hMinus⟩
          refine ⟨.none, ?_, rfl⟩
          rw [List.nil_append, Sign.split,
            if_neg (by rwa [beq_iff_eq]),
            if_neg (by rwa [beq_iff_eq])]
  | plus => exact ⟨.plus, rfl, rfl⟩
  | minus => exact ⟨.minus, rfl, rfl⟩

/- What is split off a text is a sign. -/
theorem exists_sign
    {text rest : List UInt8}
    {s : Sign}
    (h : Sign.split text = (s, rest)) :
    ∃ sign, text = sign ++ rest ∧
      IsSign sign (decide (s = .minus)) := by
  cases text with
  | nil =>
      cases h
      exact ⟨[], rfl, .none⟩
  | cons b text =>
      rw [Sign.split] at h
      split at h
      next hPlus =>
        cases h
        rw [beq_iff_eq] at hPlus
        subst hPlus
        exact ⟨_, rfl, .plus⟩
      next =>
        split at h
        next hMinus =>
          cases h
          rw [beq_iff_eq] at hMinus
          subst hMinus
          exact ⟨_, rfl, .minus⟩
        next =>
          cases h
          exact ⟨[], rfl, .none⟩

/- An exponent is read with its sign. -/
theorem IsExponent.exponentOf?
    {text digits : List UInt8}
    {downward : Bool}
    (h : IsExponent text downward digits) :
    Decimal.exponentOf? text =
      some (Ieee.Value.signed downward
        (Decimal.exponentValue digits)) := by
  cases h with
  | none => rfl
  | @marked mark sign digits downward hMark hSign hDigits =>
      have hMarked :
          (mark == code 'e' || mark == code 'E') = true := by
        rcases hMark with rfl | rfl <;> decide
      have hHead :
          ∀ b, digits.head? = some b →
            b ≠ code '+' ∧ b ≠ code '-' := by
        intro b hb
        rcases (IsMantissa.whole hDigits).head with
          ⟨c, rest, rfl, hNone⟩
        cases hb
        exact hNone
      rcases hSign.split hHead with ⟨s, hSplit, hMinus⟩
      have hSome : ¬ (digits.isEmpty || !digits.all isDigit) =
          true := by
        rw [Bool.or_eq_true, not_or]
        refine ⟨?_, ?_⟩
        · rw [List.isEmpty_iff]
          exact hDigits.nonempty
        · rw [Bool.not_eq_true', Bool.not_eq_false,
            List.all_eq_true]
          exact hDigits.digit
      rw [Decimal.exponentOf?, if_pos hMarked, hSplit]
      dsimp only
      rw [if_neg hSome, ← hMinus]
      by_cases hs : s = .minus <;>
        simp [hs, Ieee.Value.signed]

/- What is read as an exponent is one. -/
theorem exists_exponent
    {text : List UInt8}
    {e : Int}
    (h : Decimal.exponentOf? text = some e) :
    ∃ downward digits, IsExponent text downward digits := by
  cases text with
  | nil => exact ⟨false, [], .none⟩
  | cons mark rest =>
      rw [Decimal.exponentOf?] at h
      split at h
      next hMarked =>
        rw [Bool.or_eq_true, beq_iff_eq, beq_iff_eq]
          at hMarked
        rcases hSplit : Sign.split rest with ⟨s, digits⟩
        rw [hSplit] at h
        dsimp only at h
        rcases exists_sign hSplit with ⟨sign, rfl, hSign⟩
        split at h
        next => cases h
        next hDigits =>
          rw [Bool.or_eq_true, not_or, List.isEmpty_iff,
            Bool.not_eq_true', Bool.not_eq_false,
            List.all_eq_true] at hDigits
          exact ⟨_, digits, .marked hMarked hSign
            ⟨hDigits.1, hDigits.2⟩⟩
      next => cases h

------------------------------------------------------------
-- Literals
------------------------------------------------------------

/- A literal with a point is read behind the point. -/
theorem Decimal.afterDigits?_point
    {digits fraction exponent : List UInt8}
    (negative : Bool)
    (hSome : ¬ (digits = [] ∧ fraction = []))
    (hFraction : ∀ b ∈ fraction, isDigit b = true)
    (hExponent :
      ∀ b, exponent.head? = some b → isDigit b = false) :
    Decimal.afterDigits? negative digits
        (code '.' :: (fraction ++ exponent)) =
      (Decimal.exponentOf? exponent).map
        (fun e => ⟨negative, digits, fraction, e⟩) := by
  rcases span_digits hFraction hExponent with ⟨hTake, hDrop⟩
  have hNone : ¬ (digits.isEmpty && fraction.isEmpty) = true := by
    rwa [Bool.and_eq_true, List.isEmpty_iff, List.isEmpty_iff]
  rw [Decimal.afterDigits?, if_pos (beq_self_eq_true _)]
  dsimp only
  rw [hTake, hDrop, if_neg hNone]

/- A literal without a point is read behind its digits. -/
theorem Decimal.afterDigits?_mark
    {digits rest : List UInt8}
    {mark : UInt8}
    (negative : Bool)
    (hDigits : digits ≠ [])
    (hMark : mark ≠ code '.') :
    Decimal.afterDigits? negative digits (mark :: rest) =
      (Decimal.exponentOf? (mark :: rest)).map
        (fun e => ⟨negative, digits, [], e⟩) := by
  rw [Decimal.afterDigits?, if_neg (by rwa [beq_iff_eq]),
    if_neg (by rwa [List.isEmpty_iff])]

/- A mantissa and an exponent are read as their parts. -/
theorem IsMantissa.afterDigits?
    {mantissa digits fraction exponent places : List UInt8}
    {downward : Bool}
    (hMantissa : IsMantissa mantissa digits fraction)
    (hExponent : IsExponent exponent downward places)
    (negative : Bool) :
    Decimal.afterDigits? negative
        ((mantissa ++ exponent).takeWhile isDigit)
        ((mantissa ++ exponent).dropWhile isDigit) =
      some ⟨negative, digits, fraction,
        Ieee.Value.signed downward
          (Decimal.exponentValue places)⟩ := by
  have hEnd := hExponent.head
  have hPoint :
      ∀ text : List UInt8, ∀ b,
        (code '.' :: text).head? = some b →
          isDigit b = false := by
    intro text b hb
    cases hb
    decide
  cases hMantissa with
  | whole hDigits =>
      rcases span_digits hDigits.digit hEnd with ⟨hTake, hDrop⟩
      rw [hTake, hDrop]
      cases hExponent with
      | none =>
          rw [Decimal.afterDigits?,
            if_neg (by rw [List.isEmpty_iff];
                       exact hDigits.nonempty)]
          rfl
      | marked hMark hSign hPlaces =>
          have hRead :=
            (IsExponent.marked hMark hSign hPlaces).exponentOf?
          rw [Decimal.afterDigits?_mark negative hDigits.nonempty
            (by rcases hMark with rfl | rfl <;> decide), hRead]
          rfl
  | pointed hDigits hFraction =>
      rw [List.append_assoc, List.cons_append]
      rcases span_digits hDigits.digit (hPoint _) with
        ⟨hTake, hDrop⟩
      rw [hTake, hDrop,
        Decimal.afterDigits?_point negative
          (fun h => hDigits.nonempty h.1) hFraction hEnd,
        hExponent.exponentOf?]
      rfl
  | fraction hFraction =>
      rcases @span_digits [] _ (List.forall_mem_nil _)
          (hPoint (fraction ++ exponent)) with
        ⟨hTake, hDrop⟩
      rw [List.nil_append] at hTake hDrop
      rw [List.cons_append, hTake, hDrop,
        Decimal.afterDigits?_point negative
          (fun h => hFraction.nonempty h.2) hFraction.digit
          hEnd,
        hExponent.exponentOf?]
      rfl

/- Digits alone have neither a fraction nor an exponent. -/
theorem IsMantissa.eq_digits
    {mantissa digits fraction exponent places : List UInt8}
    {downward : Bool}
    (hMantissa : IsMantissa mantissa digits fraction)
    (hExponent : IsExponent exponent downward places)
    (hAll : ∀ b ∈ mantissa ++ exponent, isDigit b = true) :
    IsDigits digits ∧ mantissa ++ exponent = digits := by
  have hNever :
      ∀ b, b ∈ mantissa ++ exponent → isDigit b = false →
        False := by
    intro b hb hNot
    rw [hAll b hb] at hNot
    contradiction
  cases hMantissa with
  | whole hDigits =>
      cases hExponent with
      | none => exact ⟨hDigits, List.append_nil _⟩
      | @marked mark _ _ _ hMark _ _ =>
          exfalso
          apply hNever mark
            (List.mem_append_right _ List.mem_cons_self)
          rcases hMark with rfl | rfl <;> decide
  | pointed _ _ =>
      exfalso
      exact hNever (code '.')
        (List.mem_append_left _
          (List.mem_append_right _ List.mem_cons_self))
        (by decide)
  | fraction _ =>
      exfalso
      exact hNever (code '.')
        (List.mem_append_left _ List.mem_cons_self)
        (by decide)

/- A sign and digits are a numeral. -/
theorem IsSign.numeral
    {sign digits : List UInt8}
    {negative : Bool}
    (h : IsSign sign negative)
    (hDigits : IsDigits digits) :
    Numeral (sign ++ digits)
      (Ieee.Value.signed negative (decimalValue digits)) := by
  cases h with
  | none => exact .unsigned hDigits
  | plus => exact .positive hDigits
  | minus => exact .negative hDigits

/- The sign of a decimal literal is split off its mantissa. -/
theorem IsSign.split_mantissa
    {sign mantissa digits fraction exponent : List UInt8}
    {negative : Bool}
    (hSign : IsSign sign negative)
    (hMantissa : IsMantissa mantissa digits fraction) :
    ∃ s,
      Sign.split (sign ++ (mantissa ++ exponent)) =
          (s, mantissa ++ exponent) ∧
        decide (s = .minus) = negative := by
  rcases hMantissa.head with ⟨c, rest, rfl, hNone⟩
  apply hSign.split
  intro b hb
  cases hb
  exact hNone

/- A decimal literal is read as its parts. -/
theorem SpellsDecimal.ofLiteral?
    {token : List UInt8}
    {x : DecimalParts}
    (h : SpellsDecimal token x) :
    Decimal.ofLiteral? token =
      some ⟨x.negative, x.digits, x.fraction,
        Ieee.Value.signed x.downward
          (Decimal.exponentValue x.exponent)⟩ := by
  cases h with
  | parts hSign hMantissa hExponent =>
      rcases hSign.split_mantissa hMantissa with
        ⟨s, hSplit, hMinus⟩
      rw [Decimal.ofLiteral?, hSplit]
      dsimp only
      rw [hMinus]
      exact hMantissa.afterDigits? hExponent _

/- Only a numeral is a plain literal. -/
theorem SpellsDecimal.numeral
    {token : List UInt8}
    {x : DecimalParts}
    (h : SpellsDecimal token x)
    (hPlain : Decimal.isPlain token = true) :
    Numeral token
      (Ieee.Value.signed x.negative
        (decimalValue x.digits)) := by
  cases h with
  | parts hSign hMantissa hExponent =>
      rcases hSign.split_mantissa hMantissa with
        ⟨s, hSplit, -⟩
      rw [Decimal.isPlain, hSplit, List.isEmpty_iff,
        List.dropWhile_eq_nil_iff] at hPlain
      rcases hMantissa.eq_digits hExponent hPlain with
        ⟨hDigits, hSame⟩
      rw [hSame]
      exact hSign.numeral hDigits

/- What is read behind a sign is a mantissa and an exponent. -/
theorem exists_mantissa
    {text : List UInt8}
    {negative : Bool}
    {d : Decimal}
    (h :
      Decimal.afterDigits? negative (text.takeWhile isDigit)
        (text.dropWhile isDigit) = some d) :
    ∃ mantissa exponent digits fraction downward places,
      text = mantissa ++ exponent ∧
        IsMantissa mantissa digits fraction ∧
        IsExponent exponent downward places := by
  have hText :
      text.takeWhile isDigit ++ text.dropWhile isDigit = text :=
    List.takeWhile_append_dropWhile
  have hDigits :
      text.takeWhile isDigit ≠ [] →
        IsDigits (text.takeWhile isDigit) :=
    fun hSome => ⟨hSome, fun _ => List.mem_takeWhile_imp⟩
  generalize text.takeWhile isDigit = digits at *
  generalize text.dropWhile isDigit = rest at *
  subst hText
  cases rest with
  | nil =>
      rw [Decimal.afterDigits?] at h
      split at h
      next => cases h
      next hSome =>
        rw [List.isEmpty_iff] at hSome
        exact ⟨digits, [], digits, [], false, [], rfl,
          .whole (hDigits hSome), .none⟩
  | cons b rest =>
      rw [Decimal.afterDigits?] at h
      split at h
      next hPoint =>
        rw [beq_iff_eq] at hPoint
        subst hPoint
        dsimp only at h
        split at h
        next => cases h
        next hSome =>
          rw [Option.map_eq_some_iff] at h
          rcases h with ⟨e, hRead, -⟩
          rcases exists_exponent hRead with
            ⟨downward, places, hExponent⟩
          rw [Bool.and_eq_true, List.isEmpty_iff,
            List.isEmpty_iff] at hSome
          have hRest :
              rest.takeWhile isDigit ++
                rest.dropWhile isDigit = rest :=
            List.takeWhile_append_dropWhile
          have hFraction :
              ∀ c ∈ rest.takeWhile isDigit, isDigit c = true :=
            fun _ => List.mem_takeWhile_imp
          by_cases hNone : digits = []
          · subst hNone
            refine ⟨code '.' :: rest.takeWhile isDigit, _, [],
              _, downward, places, ?_, .fraction ?_, hExponent⟩
            · rw [List.cons_append, hRest]
              rfl
            · exact ⟨fun h => hSome ⟨rfl, h⟩, hFraction⟩
          · refine ⟨digits ++
                code '.' :: rest.takeWhile isDigit, _, digits,
              _, downward, places, ?_,
              .pointed (hDigits hNone) hFraction, hExponent⟩
            rw [List.append_assoc, List.cons_append, hRest]
      next =>
        split at h
        next => cases h
        next hSome =>
          rw [Option.map_eq_some_iff] at h
          rcases h with ⟨e, hRead, -⟩
          rcases exists_exponent hRead with
            ⟨downward, places, hExponent⟩
          rw [List.isEmpty_iff] at hSome
          exact ⟨digits, _, digits, [], downward, places, rfl,
            .whole (hDigits hSome), hExponent⟩

/- What is read as a decimal literal is one. -/
theorem exists_spellsDecimal
    {token : List UInt8}
    {d : Decimal}
    (h : Decimal.ofLiteral? token = some d) :
    ∃ x, SpellsDecimal token x := by
  rcases hSplit : Sign.split token with ⟨s, rest⟩
  rw [Decimal.ofLiteral?, hSplit] at h
  rcases exists_sign hSplit with ⟨sign, rfl, hSign⟩
  rcases exists_mantissa h with
    ⟨mantissa, exponent, digits, fraction, downward, places,
      rfl, hMantissa, hExponent⟩
  exact ⟨_, .parts hSign hMantissa hExponent⟩

------------------------------------------------------------
-- Parts
------------------------------------------------------------

/- What stands on both sides of the point are digits. -/
theorem SpellsDecimal.digit
    {token : List UInt8}
    {x : DecimalParts}
    (h : SpellsDecimal token x) :
    ∀ b ∈ x.digits ++ x.fraction, isDigit b = true := by
  cases h with
  | parts _ hMantissa _ =>
      intro b hb
      rcases List.mem_append.mp hb with hb | hb
      · cases hMantissa with
        | whole hDigits => exact hDigits.digit b hb
        | pointed hDigits _ => exact hDigits.digit b hb
        | fraction _ => cases hb
      · cases hMantissa with
        | whole _ => cases hb
        | pointed _ hFraction => exact hFraction b hb
        | fraction hFraction => exact hFraction.digit b hb

/- An exponent is made of digits, too. -/
theorem SpellsDecimal.digit_exponent
    {token : List UInt8}
    {x : DecimalParts}
    (h : SpellsDecimal token x) :
    ∀ b ∈ x.exponent, isDigit b = true := by
  cases h with
  | parts _ _ hExponent =>
      cases hExponent with
      | none => exact nofun
      | marked _ _ hDigits => exact hDigits.digit

------------------------------------------------------------
-- Number Signs
------------------------------------------------------------

/- No digit is a number sign. -/
theorem number_sign_not_mem
    {digits : List UInt8}
    (h : ∀ b ∈ digits, isDigit b = true) :
    code '#' ∉ digits := by
  intro hMem
  have hDigit := h _ hMem
  revert hDigit
  decide

/- No number sign stands in a sign, -/
theorem IsSign.number_sign
    {sign : List UInt8}
    {negative : Bool}
    (h : IsSign sign negative) :
    code '#' ∉ sign := by
  cases h <;> decide

/- in a mantissa -/
theorem IsMantissa.number_sign
    {text digits fraction : List UInt8}
    (h : IsMantissa text digits fraction) :
    code '#' ∉ text := by
  have hPoint : code '#' ≠ code '.' := by decide
  cases h with
  | whole hDigits => exact number_sign_not_mem hDigits.digit
  | pointed hDigits hFraction =>
      rw [List.mem_append, List.mem_cons, not_or, not_or]
      exact ⟨number_sign_not_mem hDigits.digit, hPoint,
        number_sign_not_mem hFraction⟩
  | fraction hFraction =>
      rw [List.mem_cons, not_or]
      exact ⟨hPoint, number_sign_not_mem hFraction.digit⟩

/- or in an exponent, -/
theorem IsExponent.number_sign
    {text digits : List UInt8}
    {downward : Bool}
    (h : IsExponent text downward digits) :
    code '#' ∉ text := by
  cases h with
  | none => exact List.not_mem_nil
  | marked hMark hSign hDigits =>
      rw [List.mem_cons, List.mem_append, not_or, not_or]
      refine ⟨?_, hSign.number_sign,
        number_sign_not_mem hDigits.digit⟩
      rcases hMark with rfl | rfl <;> decide

/- and so none in a decimal literal. -/
theorem SpellsDecimal.number_sign
    {token : List UInt8}
    {x : DecimalParts}
    (h : SpellsDecimal token x) :
    code '#' ∉ token := by
  cases h with
  | parts hSign hMantissa hExponent =>
      rw [List.mem_append, List.mem_append, not_or, not_or]
      exact ⟨hSign.number_sign, hMantissa.number_sign,
        hExponent.number_sign⟩

/- With a number sign nothing is a decimal literal. -/
theorem Decimal.ofLiteral?_number_sign
    {token : List UInt8}
    (h : code '#' ∈ token) :
    Decimal.ofLiteral? token = none := by
  rw [Option.eq_none_iff_forall_ne_some]
  intro d hRead
  rcases exists_spellsDecimal hRead with ⟨x, hSpells⟩
  exact hSpells.number_sign h

end PostScript
