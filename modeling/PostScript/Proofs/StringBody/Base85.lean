import PostScript.Proofs.StringBody.Hexadecimal
import PostScript.StringBody.Base85

/-
  This file describes which texts in base 85 spell which
  bytes, and shows that a text is read as the bytes it spells.

  Key definitions include:
    * `Base85.valueOf`
    * `Base85.Groups`
    * `Base85.Spells`

  Main results:
    * `Base85.decode?_of_groups`
    * `Base85.read_spelled`
-/

namespace PostScript.Base85

open ByteSource

------------------------------------------------------------
-- Spelling
------------------------------------------------------------

/- The number that digits spell, the highest first. -/
def valueOf
    (digits : List Nat) : Nat :=
  digits.foldl (fun v d => v * 85 + d) 0

/- The digits of a text, if there is nothing else in it. -/
def DigitsOf
    (text : List UInt8)
    (digits : List Nat) : Prop :=
  text.map digit? = digits.map some

/-
  Five digits spell the four bytes of their number, and `z`
  spells four zeros. The last group may be cut short by up to
  three digits. It spells one byte less than it has digits,
  the first ones of the number that it becomes when it is
  filled up with the greatest digit.
-/
inductive Groups : List UInt8 → List UInt8 → Prop where
  | nil :
      Groups [] []
  | zeros
      {rest bytes : List UInt8}
      (hRest : Groups rest bytes) :
      Groups (code 'z' :: rest) (0 :: 0 :: 0 :: 0 :: bytes)
  | full
      {text rest bytes : List UInt8}
      {digits : List Nat}
      (hText : DigitsOf text digits)
      (hLength : text.length = 5)
      (hValue : valueOf digits ≤ 0xffffffff)
      (hRest : Groups rest bytes) :
      Groups (text ++ rest)
        (bigEndianBytes 4 (valueOf digits) ++ bytes)
  | short
      {text : List UInt8}
      {digits : List Nat}
      (hText : DigitsOf text digits)
      (hLower : 2 ≤ text.length)
      (hUpper : text.length ≤ 4)
      (hValue :
        valueOf
          (digits ++ List.replicate (5 - text.length) 84) ≤
            0xffffffff) :
      Groups text
        ((bigEndianBytes 4
          (valueOf
            (digits ++
              List.replicate (5 - text.length) 84))).take
          (text.length - 1))

/- A text spells what its visible bytes spell. -/
def Spells
    (text bytes : List UInt8) : Prop :=
  Groups (visible text) bytes

/- There are as many digits as bytes. -/
theorem DigitsOf.length
    {text : List UInt8}
    {digits : List Nat}
    (h : DigitsOf text digits) :
    digits.length = text.length := by
  have hLength := congrArg List.length h
  simpa using hLength.symm

/- The first byte of digits is a digit. -/
theorem DigitsOf.cons
    {b : UInt8}
    {text : List UInt8}
    {digits : List Nat}
    (h : DigitsOf (b :: text) digits) :
    ∃ d more, digits = d :: more ∧ digit? b = some d ∧
      DigitsOf text more := by
  cases digits with
  | nil => simp [DigitsOf] at h
  | cons d more =>
      unfold DigitsOf at h
      rw [List.map_cons, List.map_cons] at h
      exact ⟨d, more, rfl, (List.cons.inj h).1,
        (List.cons.inj h).2⟩

/- Every byte of digits is a digit. -/
theorem DigitsOf.mem
    {b : UInt8}
    {text : List UInt8}
    {digits : List Nat}
    (h : DigitsOf text digits)
    (hb : b ∈ text) :
    ∃ d, digit? b = some d := by
  have hMapped : digit? b ∈ digits.map some := by
    rw [← h]
    exact List.mem_map_of_mem hb
  rcases List.mem_map.mp hMapped with ⟨d, -, hDigit⟩
  exact ⟨d, hDigit.symm⟩

------------------------------------------------------------
-- Groups
------------------------------------------------------------

namespace Group

/- Digits are added one by one. -/
theorem foldl_push
    (digits : List Nat)
    (g : Group) :
    digits.foldl push g =
      ⟨g.length + digits.length,
        digits.foldl (fun v d => v * 85 + d) g.value⟩ := by
  induction digits generalizing g with
  | nil => rfl
  | cons d digits ih =>
      rw [List.foldl_cons, ih, List.foldl_cons,
        List.length_cons, Nat.add_comm digits.length,
        ← Nat.add_assoc]
      rfl

/- A group of digits that is empty at first. -/
theorem foldl_push_empty
    (digits : List Nat) :
    digits.foldl push empty =
      ⟨digits.length, valueOf digits⟩ := by
  rw [foldl_push]
  simp only [empty, valueOf, Nat.zero_add]

/- A group is filled up with the greatest digit. -/
theorem fill_eq
    (g : Group) :
    g.fill =
      (List.replicate (5 - g.length) 84).foldl push g := by
  have hFilling :
      List.replicate (5 - g.length) 84 =
        (List.range (5 - g.length)).map (fun _ => 84) := by
    rw [List.map_const', List.length_range]
  rw [hFilling, List.foldl_map]
  rfl

/- The value of a group of digits that is filled up. -/
theorem fill_foldl_push
    (digits : List Nat) :
    (digits.foldl push empty).fill.value =
      valueOf
        (digits ++ List.replicate (5 - digits.length) 84) := by
  rw [fill_eq, ← List.foldl_append, foldl_push_empty,
    foldl_push_empty]

/- The bytes of a group of digits. -/
theorem bytes?_foldl_push
    {digits : List Nat}
    (hValue :
      valueOf
        (digits ++ List.replicate (5 - digits.length) 84) ≤
          0xffffffff) :
    (digits.foldl push empty).bytes? =
      some ((bigEndianBytes 4
        (valueOf
          (digits ++
            List.replicate (5 - digits.length) 84))).take
        (digits.length - 1)) := by
  unfold bytes?
  rw [fill_foldl_push, if_pos hValue, foldl_push_empty]

/- A group past 32 bits has none. -/
theorem bytes?_foldl_push_eq_none
    {digits : List Nat}
    (hValue :
      0xffffffff <
        valueOf
          (digits ++ List.replicate (5 - digits.length) 84)) :
    (digits.foldl push empty).bytes? = none := by
  unfold bytes?
  rw [fill_foldl_push, if_neg (Nat.not_le.mpr hValue)]

end Group

/- Bytes of a list behind bytes of an array. -/
theorem appendList_eq
    (out : Bytes)
    (bytes : List UInt8) :
    out.appendList bytes = out ++ bytes.toArray := by
  apply Array.ext'
  simp

/- Digits that leave a group unfinished. -/
theorem decodeAfter?_pushes
    {text : List UInt8}
    {digits : List Nat}
    {g : Group}
    (out : Bytes)
    (rest : List UInt8)
    (hText : DigitsOf text digits)
    (hLength : g.length + text.length ≤ 4) :
    decodeAfter? out g (text ++ rest) =
      decodeAfter? out (digits.foldl Group.push g) rest := by
  induction text generalizing digits g with
  | nil =>
      have hNil : digits = [] :=
        List.length_eq_zero_iff.mp hText.length
      subst hNil
      rfl
  | cons b text ih =>
      rcases hText.cons with ⟨d, more, rfl, hDigit, hMore⟩
      rw [List.length_cons] at hLength
      have hOpen : g.length ≠ 4 := by
        omega
      have hNext : (g.push d).length + text.length ≤ 4 := by
        change g.length + 1 + text.length ≤ 4
        omega
      rw [List.cons_append, decodeAfter?, hDigit]
      dsimp only
      rw [if_neg hOpen, ih hMore hNext, List.foldl_cons]

/- A digit that completes a group. -/
theorem decodeAfter?_last
    {b : UInt8}
    {d : Nat}
    {g : Group}
    (out : Bytes)
    (rest : List UInt8)
    (hDigit : digit? b = some d)
    (hLength : g.length = 4) :
    decodeAfter? out g (b :: rest) =
      match (g.push d).bytes? with
      | some bytes =>
          decodeAfter? (out ++ bytes.toArray) .empty rest
      | none => none := by
  rw [decodeAfter?, hDigit]
  dsimp only
  rw [if_pos hLength]
  cases (g.push d).bytes? with
  | some bytes =>
      dsimp only
      rw [appendList_eq]
  | none => rfl

/- Five digits are decoded as one group. -/
theorem decodeAfter?_five
    {text : List UInt8}
    {digits : List Nat}
    (out : Bytes)
    (rest : List UInt8)
    (hText : DigitsOf text digits)
    (hLength : text.length = 5) :
    decodeAfter? out .empty (text ++ rest) =
      match (digits.foldl Group.push .empty).bytes? with
      | some bytes =>
          decodeAfter? (out ++ bytes.toArray) .empty rest
      | none => none := by
  match text, hLength with
  | [a, b, c, d, e], _ =>
      rcases hText.cons with ⟨v₁, ds₁, rfl, h₁, hText₁⟩
      rcases hText₁.cons with ⟨v₂, ds₂, rfl, h₂, hText₂⟩
      rcases hText₂.cons with ⟨v₃, ds₃, rfl, h₃, hText₃⟩
      rcases hText₃.cons with ⟨v₄, ds₄, rfl, h₄, hText₄⟩
      rcases hText₄.cons with ⟨v₅, ds₅, rfl, h₅, hText₅⟩
      have hNil : ds₅ = [] :=
        List.length_eq_zero_iff.mp hText₅.length
      subst hNil
      have hFour : DigitsOf [a, b, c, d] [v₁, v₂, v₃, v₄] := by
        simp [DigitsOf, h₁, h₂, h₃, h₄]
      calc decodeAfter? out .empty ([a, b, c, d, e] ++ rest)
          = decodeAfter? out .empty
              ([a, b, c, d] ++ e :: rest) := rfl
        _ = decodeAfter? out
              ([v₁, v₂, v₃, v₄].foldl Group.push .empty)
              (e :: rest) :=
            decodeAfter?_pushes out _ hFour (Nat.le_refl 4)
        _ = _ := decodeAfter?_last out rest h₅ rfl

/- They spell four bytes. -/
theorem decodeAfter?_full
    {text : List UInt8}
    {digits : List Nat}
    (out : Bytes)
    (rest : List UInt8)
    (hText : DigitsOf text digits)
    (hLength : text.length = 5)
    (hValue : valueOf digits ≤ 0xffffffff) :
    decodeAfter? out .empty (text ++ rest) =
      decodeAfter?
        (out ++ (bigEndianBytes 4 (valueOf digits)).toArray)
        .empty rest := by
  have hDigits : digits.length = 5 :=
    hText.length.trans hLength
  have hFilled :
      digits ++ List.replicate (5 - digits.length) 84 =
        digits := by
    simp [hDigits]
  rw [decodeAfter?_five out rest hText hLength,
    Group.bytes?_foldl_push (by rw [hFilled]; exact hValue),
    hFilled, hDigits]
  rfl

/- A text is decoded to the bytes that it spells. -/
theorem decodeAfter?_of_groups
    {text bytes : List UInt8}
    (out : Bytes)
    (h : Groups text bytes) :
    decodeAfter? out .empty text =
      some (out ++ bytes.toArray) := by
  induction h generalizing out with
  | nil => simp [decodeAfter?, Group.empty]
  | zeros _ ih =>
      have hNone : digit? (code 'z') = none := by
        decide
      have hZeros :
          (code 'z' == code 'z' && Group.empty.length == 0) =
            true :=
        rfl
      rw [decodeAfter?, hNone]
      dsimp only
      rw [if_pos hZeros, ih, appendList_eq]
      simp
  | full hText hLength hValue _ ih =>
      rw [decodeAfter?_full out _ hText hLength hValue, ih,
        Array.append_assoc]
      simp
  | @short text digits hText hLower hUpper hValue =>
      have hUnfinished :
          Group.empty.length + text.length ≤ 4 := by
        change 0 + text.length ≤ 4
        omega
      rw [← hText.length] at hLower hValue ⊢
      have hBytes := Group.bytes?_foldl_push hValue
      have hPushed :=
        decodeAfter?_pushes out [] hText hUnfinished
      rw [List.append_nil] at hPushed
      have hSome :
          (digits.foldl Group.push .empty).length ≠ 0 := by
        rw [Group.foldl_push_empty]
        dsimp only
        omega
      have hMany :
          (digits.foldl Group.push .empty).length ≠ 1 := by
        rw [Group.foldl_push_empty]
        dsimp only
        omega
      rw [hPushed, decodeAfter?, if_neg hSome, if_neg hMany,
        hBytes, Option.map_some, appendList_eq]

/- The text is not much longer than what it spells. -/
theorem Groups.length_le
    {text bytes : List UInt8}
    (h : Groups text bytes) :
    text.length * 4 ≤ bytes.length * 5 + 4 := by
  induction h with
  | nil => exact Nat.zero_le _
  | zeros _ ih =>
      simp only [List.length_cons]
      omega
  | full _ hLength _ _ ih =>
      simp only [List.length_append, length_bigEndianBytes]
      omega
  | short _ hLower hUpper _ =>
      simp only [List.length_take, length_bigEndianBytes]
      omega

/- A tilde belongs to no group. -/
theorem Groups.ne_tilde
    {text bytes : List UInt8}
    (h : Groups text bytes) :
    ∀ b ∈ text, b ≠ code '~' := by
  have hNone : digit? (code '~') = none := by
    decide
  have hSpelled :
      ∀ {text digits}, DigitsOf text digits →
        ∀ b ∈ text, b ≠ code '~' := by
    rintro text digits hText b hb rfl
    rcases hText.mem hb with ⟨d, hDigit⟩
    rw [hNone] at hDigit
    contradiction
  induction h with
  | nil =>
      intro b hb
      contradiction
  | zeros _ ih =>
      intro b hb
      rcases List.mem_cons.mp hb with rfl | hb
      · decide
      · exact ih b hb
  | full hText _ _ _ ih =>
      intro b hb
      rcases List.mem_append.mp hb with hb | hb
      · exact hSpelled hText b hb
      · exact ih b hb
  | short hText _ _ _ => exact hSpelled hText

------------------------------------------------------------
-- Reading
------------------------------------------------------------

variable {σ : Type}
variable [ByteSource σ]

/- What is gathered with the first byte there is. -/
theorem gather_eq
    (limit : Nat)
    (text : Bytes)
    (src : σ) :
    gather limit text src =
      match demand src with
      | (.error cause, s) => ⟨.error cause, text, s⟩
      | (.ok b, s) =>
          if b == code '~' then
            match demand s with
            | (.error cause, s') => ⟨.error cause, text, s'⟩
            | (.ok e, s') =>
                if e == code '>' then
                  ⟨.ok (), text, s'⟩
                else
                  ⟨.error .malformed, text, s'⟩
          else if isWhitespace b then
            gather limit text s
          else if text.size < limit then
            gather limit (text.push b) s
          else
            ⟨.error .tooLong, text, s⟩ := by
  rw [gather]
  rcases demand src with ⟨cause | b, s⟩ <;> rfl

/- The same where the byte is part of the text. -/
theorem gather_byte
    {src s : σ}
    {b : UInt8}
    (limit : Nat)
    (text : Bytes)
    (hDemand : demand src = (.ok b, s))
    (hText : b ≠ code '~') :
    gather limit text src =
      if isWhitespace b then
        gather limit text s
      else if text.size < limit then
        gather limit (text.push b) s
      else
        ⟨.error .tooLong, text, s⟩ := by
  have hOpen : ¬ (b == code '~') = true := by
    rw [beq_iff_eq]
    exact hText
  rw [gather_eq, hDemand]
  dsimp only
  rw [if_neg hOpen]

/- The text ends with a tilde and a closing bracket. -/
theorem gather_end
    {src : σ}
    {tail : List UInt8}
    (limit : Nat)
    (text : Bytes)
    (hSource : Supplies src (code '~' :: code '>' :: tail)) :
    ∃ s,
      gather limit text src = ⟨.ok (), text, s⟩ ∧
        Supplies s tail := by
  rcases hSource.demand with ⟨s, hDemand, hRest⟩
  rcases hRest.demand with ⟨s', hDemand', hTail⟩
  refine ⟨s', ?_, hTail⟩
  rw [gather_eq, hDemand]
  dsimp only
  rw [if_pos (beq_self_eq_true _), hDemand']
  exact if_pos (beq_self_eq_true _)

/- The visible bytes of a text are gathered. -/
theorem gather_text
    {text tail : List UInt8}
    {src : σ}
    {limit : Nat}
    {gathered : Bytes}
    (hText : ∀ b ∈ text, b ≠ code '~')
    (hLimit :
      gathered.size + (visible text).length ≤ limit)
    (hSource :
      Supplies src (text ++ code '~' :: code '>' :: tail)) :
    ∃ s,
      gather limit gathered src =
          ⟨.ok (), gathered ++ (visible text).toArray, s⟩ ∧
        Supplies s tail := by
  induction text generalizing src gathered with
  | nil =>
      rcases gather_end limit gathered hSource with
        ⟨s, hGather, hTail⟩
      refine ⟨s, ?_, hTail⟩
      rw [hGather]
      simp [visible]
  | cons b text ih =>
      rcases hSource.demand with ⟨s, hDemand, hRest⟩
      have hMore : ∀ c ∈ text, c ≠ code '~' :=
        fun c hc => hText c (List.mem_cons_of_mem _ hc)
      rw [gather_byte limit gathered hDemand
        (hText b List.mem_cons_self)]
      cases hWhite : isWhitespace b with
      | true =>
          rw [visible_cons_white text hWhite] at hLimit ⊢
          exact ih hMore hLimit hRest
      | false =>
          rw [visible_cons text hWhite] at hLimit ⊢
          rcases fits_cons hLimit with ⟨hRoom, hFits⟩
          rcases ih hMore hFits hRest with
            ⟨s', hGather, hTail⟩
          refine ⟨s', ?_, hTail⟩
          rw [if_neg Bool.false_ne_true, if_pos hRoom,
            hGather, push_append]

/- No tilde stands in a text that spells something. -/
theorem Spells.ne_tilde
    {text bytes : List UInt8}
    (h : Spells text bytes) :
    ∀ b ∈ text, b ≠ code '~' := by
  rintro b hb rfl
  have hVisible : code '~' ∈ visible text :=
    List.mem_filter.mpr ⟨hb, by decide⟩
  exact Groups.ne_tilde h _ hVisible rfl

/- A text in base 85 is read as the bytes that it spells. -/
theorem read_spelled
    {text tail bytes : List UInt8}
    {src : σ}
    {limit : Nat}
    (hSpells : Spells text bytes)
    (hLimit : bytes.length ≤ limit)
    (hSource :
      Supplies src (text ++ code '~' :: code '>' :: tail)) :
    ∃ gathered s,
      read limit src = ⟨.ok bytes.toArray, gathered, s⟩ ∧
        Supplies s tail := by
  have hLength := Groups.length_le hSpells
  have hFits :
      (#[] : Bytes).size + (visible text).length ≤
        textLimit limit := by
    change 0 + (visible text).length ≤ limit * 5 / 4 + 5
    omega
  have hDecoded :
      decode? (#[] ++ (visible text).toArray) =
        some bytes.toArray := by
    unfold decode?
    rw [Array.empty_append, decodeAfter?_of_groups #[]
      hSpells, Array.empty_append]
  have hShort : ¬ limit < bytes.toArray.size := by
    rw [List.size_toArray]
    omega
  rcases gather_text hSpells.ne_tilde hFits hSource with
    ⟨s, hGather, hTail⟩
  refine ⟨#[] ++ (visible text).toArray, s, ?_, hTail⟩
  unfold read
  rw [hGather]
  dsimp only
  rw [hDecoded]
  dsimp only
  rw [if_neg hShort]

end PostScript.Base85
