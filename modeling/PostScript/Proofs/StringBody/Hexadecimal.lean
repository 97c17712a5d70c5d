import PostScript.Proofs.Source.Supply
import PostScript.StringBody.Hexadecimal

/-
  This file describes which texts of hexadecimal digits spell
  which bytes, and shows that a text is read as the bytes it
  spells.

  Key definitions include:
    * `visible`
    * `Hexadecimal.Digits`
    * `Hexadecimal.Spells`

  Main results:
    * `Hexadecimal.body_closed`
    * `Hexadecimal.read_spelled`
    * `Hexadecimal.read_tooLong`
-/

namespace PostScript

open ByteSource

------------------------------------------------------------
-- Visible Bytes
------------------------------------------------------------

/- What is left of a text without its white space. -/
def visible
    (text : List UInt8) : List UInt8 :=
  text.filter (fun b => !isWhitespace b)

/- White space is not visible. -/
theorem visible_cons_white
    {b : UInt8}
    (rest : List UInt8)
    (hWhite : isWhitespace b = true) :
    visible (b :: rest) = visible rest := by
  simp [visible, hWhite]

/- Any other byte is. -/
theorem visible_cons
    {b : UInt8}
    (rest : List UInt8)
    (hVisible : isWhitespace b = false) :
    visible (b :: rest) = b :: visible rest := by
  simp [visible, hVisible]

namespace Hexadecimal

------------------------------------------------------------
-- Spelling
------------------------------------------------------------

/-
  Two digits spell a byte. An odd last digit is the high half
  of a byte whose low half is zero.
-/
inductive Digits : List UInt8 → List UInt8 → Prop where
  | nil :
      Digits [] []
  | odd
      {a : UInt8}
      {h : Nat}
      (hHigh : digitOf 16 a = some h) :
      Digits [a] [pair h 0]
  | pair
      {a b : UInt8}
      {h l : Nat}
      {rest bytes : List UInt8}
      (hHigh : digitOf 16 a = some h)
      (hLow : digitOf 16 b = some l)
      (hRest : Digits rest bytes) :
      Digits (a :: b :: rest) (pair h l :: bytes)

/- A text spells what its digits spell. -/
def Spells
    (text bytes : List UInt8) : Prop :=
  Digits (visible text) bytes

/- The first digit of what spells something. -/
theorem Digits.head
    {b : UInt8}
    {rest bytes : List UInt8}
    (h : Digits (b :: rest) bytes) :
    ∃ d, digitOf 16 b = some d := by
  cases h with
  | odd hHigh => exact ⟨_, hHigh⟩
  | pair hHigh _ _ => exact ⟨_, hHigh⟩

/- A closing bracket is no digit. -/
theorem ne_close_of_digit
    {b : UInt8}
    {d : Nat}
    (h : digitOf 16 b = some d) :
    ¬ (b == code '>') = true := by
  rw [beq_iff_eq]
  rintro rfl
  revert h
  decide +revert

/- White space is none, either. -/
theorem ne_close_of_white
    {b : UInt8}
    (h : isWhitespace b = true) :
    ¬ (b == code '>') = true := by
  rw [beq_iff_eq]
  rintro rfl
  revert h
  decide

------------------------------------------------------------
-- Reading
------------------------------------------------------------

variable {σ : Type}
variable [ByteSource σ]

/- What is read with the first byte there is. -/
theorem body_eq
    (limit : Nat)
    (high : Option Nat)
    (text : Bytes)
    (src : σ) :
    body limit high text src =
      match demand src with
      | (.error cause, s) => ⟨.error cause, text, s⟩
      | (.ok b, s) =>
          if b == code '>' then
            match high with
            | none => ⟨.ok (), text, s⟩
            | some h =>
                if text.size < limit then
                  ⟨.ok (), text.push (pair h 0), s⟩
                else
                  ⟨.error .tooLong, text, s⟩
          else if isWhitespace b then
            body limit high text s
          else
            match digitOf 16 b with
            | none => ⟨.error .malformed, text, s⟩
            | some d =>
                match high with
                | none => body limit (some d) text s
                | some h =>
                    if text.size < limit then
                      body limit none (text.push (pair h d)) s
                    else
                      ⟨.error .tooLong, text, s⟩ := by
  rw [body]
  rcases demand src with ⟨cause | b, s⟩ <;> rfl

/- The same where the byte is known. -/
theorem body_byte
    {src s : σ}
    {b : UInt8}
    (limit : Nat)
    (high : Option Nat)
    (text : Bytes)
    (hDemand : demand src = (.ok b, s)) :
    body limit high text src =
      if b == code '>' then
        match high with
        | none => ⟨.ok (), text, s⟩
        | some h =>
            if text.size < limit then
              ⟨.ok (), text.push (pair h 0), s⟩
            else
              ⟨.error .tooLong, text, s⟩
      else if isWhitespace b then
        body limit high text s
      else
        match digitOf 16 b with
        | none => ⟨.error .malformed, text, s⟩
        | some d =>
            match high with
            | none => body limit (some d) text s
            | some h =>
                if text.size < limit then
                  body limit none (text.push (pair h d)) s
                else
                  ⟨.error .tooLong, text, s⟩ := by
  rw [body_eq, hDemand]

/-
  The digits behind a first digit that is still alone spell
  what they spell together with it.
-/
def DigitsAfter
    (high : Option Nat)
    (digits bytes : List UInt8) : Prop :=
  match high with
  | none => Digits digits bytes
  | some h =>
      ∃ a, digitOf 16 a = some h ∧ Digits (a :: digits) bytes

/-
  Digits are read up to the closing bracket, if their bytes
  fit, and are given up if they do not.
-/
theorem body_closed
    {text tail bytes : List UInt8}
    {src : σ}
    {limit : Nat}
    {high : Option Nat}
    (gathered : Bytes)
    (hSpells : DigitsAfter high (visible text) bytes)
    (hSize : gathered.size ≤ limit)
    (hSource : Supplies src (text ++ code '>' :: tail)) :
    if gathered.size + bytes.length ≤ limit then
      ∃ s,
        body limit high gathered src =
            ⟨.ok (), gathered ++ bytes.toArray, s⟩ ∧
          Supplies s tail
    else
      (body limit high gathered src).result =
        .error .tooLong := by
  induction text generalizing src high gathered bytes with
  | nil =>
      rcases hSource.demand with ⟨s, hDemand, hRest⟩
      rw [body_byte limit high gathered hDemand,
        if_pos (beq_self_eq_true _)]
      cases high with
      | none =>
          cases hSpells
          rw [List.length_nil, Nat.add_zero, if_pos hSize]
          exact ⟨s, by simp, hRest⟩
      -- The bracket adds the byte of a digit left alone.
      | some h =>
          rcases hSpells with ⟨a, hHigh, hDigits⟩
          cases hDigits with
          | odd hHigh' =>
              rw [hHigh] at hHigh'
              cases hHigh'
              dsimp only
              split
              next hFits =>
                have hRoom : gathered.size < limit := hFits
                exact ⟨s, by simp [hRoom], hRest⟩
              next hFull =>
                have hNone : ¬ gathered.size < limit := hFull
                rw [if_neg hNone]
  | cons b text ih =>
      rcases hSource.demand with ⟨s, hDemand, hRest⟩
      rw [body_byte limit high gathered hDemand]
      cases hWhite : isWhitespace b with
      | true =>
          rw [if_neg (ne_close_of_white hWhite), if_pos rfl]
          rw [visible_cons_white text hWhite] at hSpells
          exact ih gathered hSpells hSize hRest
      | false =>
          rw [visible_cons text hWhite] at hSpells
          cases high with
          | none =>
              rcases Digits.head hSpells with ⟨d, hDigit⟩
              have hAfter :
                  DigitsAfter (some d) (visible text) bytes :=
                ⟨b, hDigit, hSpells⟩
              rw [if_neg (ne_close_of_digit hDigit),
                if_neg Bool.false_ne_true, hDigit]
              exact ih gathered hAfter hSize hRest
          | some h =>
              rcases hSpells with ⟨a, hHigh, hDigits⟩
              cases hDigits with
              | @pair _ _ h' d _ bytes hHigh' hDigit hMore =>
                  rw [hHigh] at hHigh'
                  cases hHigh'
                  have hAfter :
                      DigitsAfter none (visible text) bytes :=
                    hMore
                  have hSum :
                      (gathered.push (pair h d)).size +
                          bytes.length =
                        gathered.size +
                          (pair h d :: bytes).length := by
                    rw [Array.size_push, List.length_cons]
                    omega
                  rw [if_neg (ne_close_of_digit hDigit),
                    if_neg Bool.false_ne_true, hDigit]
                  dsimp only
                  by_cases hRoom : gathered.size < limit
                  · have hPushed :
                        (gathered.push (pair h d)).size ≤
                          limit := by
                      rwa [Array.size_push]
                    have hRead := ih _ hAfter hPushed hRest
                    rw [hSum, push_append] at hRead
                    rwa [if_pos hRoom]
                  · have hFull :
                        ¬ gathered.size +
                            (pair h d :: bytes).length ≤
                          limit := by
                      rw [List.length_cons]
                      omega
                    rw [if_neg hRoom, if_neg hFull]

/- A text in digits is read as the bytes that it spells. -/
theorem read_spelled
    {text tail bytes : List UInt8}
    {src : σ}
    {limit : Nat}
    (hSpells : Spells text bytes)
    (hLimit : bytes.length ≤ limit)
    (hSource : Supplies src (text ++ code '>' :: tail)) :
    ∃ s,
      read limit src = ⟨.ok (), bytes.toArray, s⟩ ∧
        Supplies s tail := by
  have hAfter : DigitsAfter none (visible text) bytes :=
    hSpells
  have hRead :=
    body_closed #[] hAfter (Nat.zero_le limit) hSource
  rw [Array.size_empty, Nat.zero_add, if_pos hLimit,
    Array.empty_append] at hRead
  exact hRead

/- A text that spells too many bytes is given up. -/
theorem read_tooLong
    {text tail bytes : List UInt8}
    {src : σ}
    {limit : Nat}
    (hSpells : Spells text bytes)
    (hLimit : limit < bytes.length)
    (hSource : Supplies src (text ++ code '>' :: tail)) :
    (read limit src).result = .error .tooLong := by
  have hAfter : DigitsAfter none (visible text) bytes :=
    hSpells
  have hRead :=
    body_closed #[] hAfter (Nat.zero_le limit) hSource
  rw [Array.size_empty, Nat.zero_add,
    if_neg (Nat.not_le_of_lt hLimit)] at hRead
  exact hRead

end Hexadecimal

end PostScript
