import PostScript.Proofs.Numeric.Decimals

/-
  This file shows what a literal with a number sign is read
  as. What counts are the digits of its base that stand behind
  the number sign: if they spell too great a number, this is
  the error, also where a byte that is no digit follows.

  Key definitions include:
    * `RadixLiteral.IsBase`

  Main results:
    * `RadixLiteral.ofLiteral_valid`
    * `RadixLiteral.ofLiteral_invalid`
-/

namespace PostScript.RadixLiteral

------------------------------------------------------------
-- Digits
------------------------------------------------------------

/- Digits that spell a base. -/
structure IsBase
    (base : List UInt8) : Prop extends IsDigits base where
  lower : 2 ≤ decimalValue base
  upper : decimalValue base ≤ 36

------------------------------------------------------------
-- Literals
------------------------------------------------------------

variable {base digits : List UInt8}

/- A base is split off its digits. -/
theorem ofLiteral?_digits
    (hBase : IsDigits base) :
    ofLiteral? (base ++ code '#' :: digits) =
      some ⟨decimalValue base, digits⟩ := by
  have hSome :
      (code '#' == code '#' && !base.isEmpty) = true := by
    rw [beq_self_eq_true, Bool.true_and, Bool.not_eq_true',
      List.isEmpty_eq_false_iff]
    exact hBase.nonempty
  rw [LiteralScan.radix_digits hBase.digit (by decide),
    if_pos hSome]

/-
  Where no number sign comes behind the digits that a text
  begins with, there is no base.
-/
theorem ofLiteral?_eq_none
    {text : List UInt8}
    (h :
      (text.dropWhile isDigit).head? ≠ some (code '#')) :
    ofLiteral? text = none := by
  unfold ofLiteral?
  dsimp only
  cases hRest : text.dropWhile isDigit with
  | nil => rfl
  | cons b rest =>
      rw [hRest, List.head?_cons, Ne, Option.some.injEq] at h
      dsimp only
      rw [beq_eq_false_iff_ne.mpr h, Bool.false_and,
        if_neg Bool.false_ne_true]

/- So it is without any number sign, -/
theorem ofLiteral?_of_not_mem
    {text : List UInt8}
    (hSign : code '#' ∉ text) :
    ofLiteral? text = none := by
  apply ofLiteral?_eq_none
  intro hHead
  exact hSign
    (List.dropWhile_subset isDigit (List.mem_of_head? hHead))

/- and where not only digits stand before the first one. -/
theorem ofLiteral?_other
    (hSign : code '#' ∉ base)
    (hBase : ¬ IsDigits base) :
    ofLiteral? (base ++ code '#' :: digits) = none := by
  by_cases hAll : ∀ b ∈ base, isDigit b = true
  · -- There is nothing before the number sign.
    have hNone : base = [] := by
      by_contra hSome
      exact hBase ⟨hSome, hAll⟩
    subst hNone
    rfl
  · have hRest : base.dropWhile isDigit ≠ [] := by
      rwa [Ne, List.dropWhile_eq_nil_iff]
    have hDrop :
        (base ++ code '#' :: digits).dropWhile isDigit =
          base.dropWhile isDigit ++ code '#' :: digits := by
      rw [List.dropWhile_append, if_neg]
      rwa [List.isEmpty_iff]
    apply ofLiteral?_eq_none
    rw [hDrop, List.head?_append,
      Option.or_of_isSome (List.isSome_head?.mpr hRest)]
    intro hHead
    exact hSign
      (List.dropWhile_subset isDigit (List.mem_of_head? hHead))

/- All bytes are digits if the leading digits are all. -/
theorem leading_eq_self
    {base : Nat}
    {text : List UInt8} :
    leading base text = text ↔
      ∀ b ∈ text, (digitOf base b).isSome = true :=
  List.takeWhile_eq_self_iff

/- What a literal with a base is read as. -/
theorem ofLiteral_valid
    (hBase : IsBase base)
    (hDigits : digits ≠ []) :
    Number.ofLiteral (base ++ code '#' :: digits) =
      if 0xffffffff <
          valueOf (decimalValue base)
            (leading (decimalValue base) digits) then
        .error .tooLong
      else if leading (decimalValue base) digits = digits then
        .ok (some (.integer
          (UInt32.ofNat
            (valueOf (decimalValue base) digits)).toInt32))
      else
        .ok none := by
  have hRange :
      ¬ (decimalValue base < 2 ∨ 36 < decimalValue base ∨
        digits.isEmpty = true) := by
    rw [List.isEmpty_iff, not_or, not_or, Nat.not_lt,
      Nat.not_lt]
    exact ⟨hBase.lower, hBase.upper, hDigits⟩
  rw [Number.ofLiteral_eq, Number.ofGrammar,
    ofLiteral?_digits hBase.toIsDigits]
  dsimp only
  unfold read
  dsimp only
  rw [if_neg hRange]

/- Too great a number is an error. -/
theorem ofLiteral_tooLong
    (hBase : IsBase base)
    (hDigits : digits ≠ [])
    (hValue :
      0xffffffff <
        valueOf (decimalValue base)
          (leading (decimalValue base) digits)) :
    Number.ofLiteral (base ++ code '#' :: digits) =
      .error .tooLong := by
  rw [ofLiteral_valid hBase hDigits, if_pos hValue]

/- A number of 32 bits is read in two's complement. -/
theorem toInt_toInt32
    (v : Nat) :
    (UInt32.ofNat v).toInt32.toInt =
      (v : Int).bmod (2 ^ 32) := by
  have hBits :
      (UInt32.ofNat v).toBitVec.toNat = v % 2 ^ 32 :=
    UInt32.toNat_ofNat'
  have hSame :
      (UInt32.ofNat v).toInt32.toInt =
        (UInt32.ofNat v).toBitVec.toInt :=
    rfl
  rw [hSame, BitVec.toInt_eq_toNat_bmod, hBits,
    Int.natCast_emod]
  exact Int.emod_bmod _ _

/- A number that is not too great is an integer. -/
theorem ofLiteral_integer
    (hBase : IsBase base)
    (hDigits : digits ≠ [])
    (hValue :
      valueOf (decimalValue base)
          (leading (decimalValue base) digits) ≤
        0xffffffff)
    (hAll :
      ∀ b ∈ digits,
        (digitOf (decimalValue base) b).isSome = true) :
    ∃ v : Int32,
      Number.ofLiteral (base ++ code '#' :: digits) =
          .ok (some (.integer v)) ∧
        v.toInt =
          (valueOf (decimalValue base) digits : Int).bmod
            (2 ^ 32) := by
  refine ⟨_, ?_, toInt_toInt32 _⟩
  rw [ofLiteral_valid hBase hDigits,
    if_neg (Nat.not_lt.mpr hValue),
    if_pos (leading_eq_self.mpr hAll)]

/- Behind such a number a byte that is no digit spoils it. -/
theorem ofLiteral_stray
    (hBase : IsBase base)
    (hDigits : digits ≠ [])
    (hValue :
      valueOf (decimalValue base)
          (leading (decimalValue base) digits) ≤
        0xffffffff)
    (hStray :
      ¬ ∀ b ∈ digits,
        (digitOf (decimalValue base) b).isSome = true) :
    Number.ofLiteral (base ++ code '#' :: digits) =
      .ok none := by
  rw [ofLiteral_valid hBase hDigits,
    if_neg (Nat.not_lt.mpr hValue),
    if_neg (fun h => hStray (leading_eq_self.mp h))]

/- Without a base or without digits there is no number. -/
theorem ofLiteral_invalid
    (hSign : code '#' ∉ base)
    (hNone : ¬ (IsBase base ∧ digits ≠ [])) :
    Number.ofLiteral (base ++ code '#' :: digits) =
      .ok none := by
  by_cases hDigits : IsDigits base
  · have hRange :
        decimalValue base < 2 ∨ 36 < decimalValue base ∨
          digits.isEmpty = true := by
      rw [List.isEmpty_iff]
      by_contra hNot
      rw [not_or, not_or, Nat.not_lt, Nat.not_lt] at hNot
      exact hNone
        ⟨⟨hDigits, hNot.1, hNot.2.1⟩, hNot.2.2⟩
    rw [Number.ofLiteral_eq, Number.ofGrammar,
      ofLiteral?_digits hDigits]
    dsimp only
    unfold read
    rw [if_pos hRange]
  · have hMem : code '#' ∈ base ++ code '#' :: digits :=
      List.mem_append_right _ List.mem_cons_self
    rw [Number.ofLiteral_eq, Number.ofGrammar,
      ofLiteral?_other hSign hDigits,
      Decimal.ofLiteral?_number_sign hMem]
    rfl

end PostScript.RadixLiteral
