import PostScript.Proofs.Numeric.Numerals
import PostScript.Proofs.StringBody.Hexadecimal

/-
  This file shows what becomes of any text at all behind an
  opening bracket. Either a bracket closes it behind nothing
  but digits and white space, and it is read as the bytes that
  they spell, or some other byte strays into it or it ends,
  and it is not read.

  Key definitions include:
    * `Hexadecimal.IsDigit`
    * `Hexadecimal.Closed`
    * `Hexadecimal.Stray`
    * `Hexadecimal.Decides`

  Main results:
    * `Hexadecimal.split`
    * `Hexadecimal.read_stray`
    * `Hexadecimal.read_decided`
-/

namespace PostScript.Hexadecimal

open ByteSource

------------------------------------------------------------
-- Closed Texts
------------------------------------------------------------

/- A hexadecimal digit in either case. -/
def IsDigit
    (b : UInt8) : Prop :=
  isBetween '0' '9' b = true ∨
    isBetween 'a' 'f' b = true ∨
    isBetween 'A' 'F' b = true

instance
    (b : UInt8) : Decidable (IsDigit b) :=
  inferInstanceAs (Decidable (_ ∨ _ ∨ _))

/- What may stand between the brackets. -/
def IsInner
    (b : UInt8) : Prop :=
  IsDigit b ∨ isWhitespace b = true

instance
    (b : UInt8) : Decidable (IsInner b) :=
  inferInstanceAs (Decidable (_ ∨ _))

/-
  The input is a text of digits and white space that spells
  the bytes, the bracket that closes it and a rest.
-/
def Closed
    (input bytes rest : List UInt8) : Prop :=
  ∃ text, input = text ++ code '>' :: rest ∧
    (∀ b ∈ text, IsInner b) ∧ Spells text bytes

/- Nothing closes the text, and nothing goes on with it. -/
def Stray
    (tail : List UInt8) : Prop :=
  ∀ b, tail.head? = some b → ¬ IsInner b ∧ b ≠ code '>'

/- An input is closed somewhere, or something strays. -/
inductive Split : List UInt8 → Prop where
  | closed
      {text : List UInt8}
      (hText : ∀ b ∈ text, IsInner b)
      (rest : List UInt8) :
      Split (text ++ code '>' :: rest)
  | stray
      {text tail : List UInt8}
      (hText : ∀ b ∈ text, IsInner b)
      (hTail : Stray tail) :
      Split (text ++ tail)

/- Every input is one of both. -/
theorem split
    (input : List UInt8) :
    Split input := by
  induction input with
  | nil =>
      exact @Split.stray [] [] nofun nofun
  | cons b rest ih =>
      by_cases hClose : b = code '>'
      · subst hClose
        exact @Split.closed [] nofun rest
      by_cases hInner : IsInner b
      · cases ih with
        | closed hText more =>
            exact @Split.closed (b :: _)
              (List.forall_mem_cons.mpr ⟨hInner, hText⟩) more
        | stray hText hTail =>
            exact @Split.stray (b :: _) _
              (List.forall_mem_cons.mpr ⟨hInner, hText⟩) hTail
      · refine @Split.stray [] (b :: rest) nofun ?_
        intro c hHead
        cases Option.some.inj hHead
        exact ⟨hInner, hClose⟩

------------------------------------------------------------
-- Digits
------------------------------------------------------------

/- The digits are the bytes that have a value below 16. -/
theorem isDigit_iff
    (b : UInt8) :
    IsDigit b ↔ (digitOf 16 b).isSome = true := by
  refine forall_byte
    (p := fun b =>
      IsDigit b ↔ (digitOf 16 b).isSome = true) ?_ b
  decide +kernel

/- A digit has a value. -/
theorem IsDigit.value
    {b : UInt8}
    (h : IsDigit b) :
    ∃ d, digitOf 16 b = some d :=
  Option.isSome_iff_exists.mp ((isDigit_iff b).mp h)

/- Any other byte has none. -/
theorem digitOf_of_not_isDigit
    {b : UInt8}
    (h : ¬ IsDigit b) :
    digitOf 16 b = none := by
  rw [isDigit_iff, Option.not_isSome_iff_eq_none] at h
  exact h

/- Digits spell something. -/
theorem exists_digits
    (digits : List UInt8)
    (h : ∀ b ∈ digits, IsDigit b) :
    ∃ bytes, Digits digits bytes := by
  match digits, h with
  | [], _ => exact ⟨[], .nil⟩
  | [a], h =>
      rcases (h a List.mem_cons_self).value with ⟨d, hHigh⟩
      exact ⟨_, .odd hHigh⟩
  | a :: b :: rest, h =>
      rcases List.forall_mem_cons.mp h with ⟨hA, h⟩
      rcases List.forall_mem_cons.mp h with ⟨hB, hRest⟩
      rcases hA.value with ⟨d, hHigh⟩
      rcases hB.value with ⟨e, hLow⟩
      rcases exists_digits rest hRest with ⟨bytes, hBytes⟩
      exact ⟨_, .pair hHigh hLow hBytes⟩

/- So do digits with white space between them. -/
theorem exists_spells
    {text : List UInt8}
    (h : ∀ b ∈ text, IsInner b) :
    ∃ bytes, Spells text bytes := by
  apply exists_digits
  intro b hb
  rcases List.mem_filter.mp hb with ⟨hText, hVisible⟩
  rcases h b hText with hDigit | hWhite
  · exact hDigit
  · rw [hWhite] at hVisible
    contradiction

------------------------------------------------------------
-- Deciding
------------------------------------------------------------

/-
  What a reader with a limit makes of an input. It accepts the
  input as some bytes, and stops at a rest, exactly if they
  are spelled up to the bracket before the rest and are not
  too many. If they are, this is the error. An input that
  something strays into is not accepted, and the error is
  that, or that the digits before it are too many.
-/
structure Decides
    (input : List UInt8)
    (limit : Nat)
    (accepts : List UInt8 → List UInt8 → Prop)
    (fails : ErrorKind → Prop) : Prop where
  accepted :
    ∀ bytes rest,
      accepts bytes rest ↔
        Closed input bytes rest ∧ bytes.length ≤ limit
  excessive :
    ∀ bytes rest, Closed input bytes rest →
      limit < bytes.length → fails .limitCheck
  refused :
    ∀ text tail, input = text ++ tail →
      (∀ b ∈ text, IsInner b) → Stray tail →
        (∀ bytes rest, ¬ accepts bytes rest) ∧
          fails
            (if (visible text).length / 2 ≤ limit then
              .syntaxError
            else
              .limitCheck)

/- A reader that asks another one decides alike. -/
theorem Decides.imp
    {input : List UInt8}
    {limit : Nat}
    {accepts accepts' : List UInt8 → List UInt8 → Prop}
    {fails fails' : ErrorKind → Prop}
    (h : Decides input limit accepts fails)
    (hAccepts :
      ∀ bytes rest, accepts' bytes rest ↔ accepts bytes rest)
    (hFails : ∀ kind, fails kind → fails' kind) :
    Decides input limit accepts' fails' where
  accepted bytes rest :=
    (hAccepts bytes rest).trans (h.accepted bytes rest)
  excessive bytes rest hClosed hLimit :=
    hFails _ (h.excessive bytes rest hClosed hLimit)
  refused := by
    intro text tail hInput hText hTail
    rcases h.refused text tail hInput hText hTail with
      ⟨hNever, hError⟩
    exact ⟨fun bytes rest hAccept =>
      hNever bytes rest ((hAccepts bytes rest).mp hAccept),
      hFails _ hError⟩

/- What ends at once is not closed. -/
theorem not_closed_nil
    (bytes rest : List UInt8) :
    ¬ Closed [] bytes rest := by
  rintro ⟨text, hText, -⟩
  cases text <;> contradiction

/- A reader that refuses what ends at once decides it. -/
theorem decides_nil
    {accepts : List UInt8 → List UInt8 → Prop}
    {fails : ErrorKind → Prop}
    (limit : Nat)
    (hNever : ∀ bytes rest, ¬ accepts bytes rest)
    (hError : fails .syntaxError) :
    Decides [] limit accepts fails where
  accepted bytes rest :=
    iff_of_false (hNever bytes rest)
      (fun h => not_closed_nil bytes rest h.1)
  excessive bytes rest hClosed :=
    absurd hClosed (not_closed_nil bytes rest)
  refused := by
    intro text tail hInput _ _
    rcases List.append_eq_nil_iff.mp hInput.symm with
      ⟨rfl, -⟩
    exact ⟨hNever, hError⟩

------------------------------------------------------------
-- Reading
------------------------------------------------------------

variable {σ : Type}
variable [ByteSource σ]

/- The bytes are read and the source is left at the rest. -/
def Accepts
    (limit : Nat)
    (src : σ)
    (bytes rest : List UInt8) : Prop :=
  ∃ s, read limit src = ⟨.ok (), bytes.toArray, s⟩ ∧
    Supplies s rest

/- There is an error of this kind. -/
def Fails
    (limit : Nat)
    (src : σ)
    (kind : ErrorKind) : Prop :=
  ∃ cause, (read limit src).result = .error cause ∧
    cause.kind = kind

/- What strays into a text ends the reading. -/
theorem body_tail
    {tail : List UInt8}
    {src : σ}
    (limit : Nat)
    (high : Option Nat)
    (gathered : Bytes)
    (hTail : Stray tail)
    (hSource : Supplies src tail) :
    (body limit high gathered src).result =
      .error .malformed := by
  cases tail with
  | nil =>
      rcases hSource.atEnd with ⟨s, hNext, -⟩
      rw [body_eq, demand, hNext]
  | cons b rest =>
      rcases hTail b rfl with ⟨hOther, hOpen⟩
      rw [IsInner, not_or] at hOther
      rcases hOther with ⟨hDigit, hVisible⟩
      rcases hSource.demand with ⟨s, hDemand, -⟩
      rw [body_byte limit high gathered hDemand,
        if_neg (by rwa [beq_iff_eq]), if_neg hVisible,
        digitOf_of_not_isDigit hDigit]

/-
  Before that, every second digit adds a byte, and the reading
  may end because the bytes become too many.
-/
theorem body_stray
    {text tail : List UInt8}
    {src : σ}
    {limit : Nat}
    {gathered : Bytes}
    (high : Option Nat)
    (hText : ∀ b ∈ text, IsInner b)
    (hTail : Stray tail)
    (hSize : gathered.size ≤ limit)
    (hSource : Supplies src (text ++ tail)) :
    (body limit high gathered src).result =
      .error
        (if gathered.size +
            (high.toList.length +
              (visible text).length) / 2 ≤ limit then
          .malformed
        else
          .tooLong) := by
  induction text generalizing src high gathered with
  | nil =>
      have hFits :
          gathered.size +
              (high.toList.length +
                (visible []).length) / 2 ≤ limit := by
        cases high <;> simpa [visible] using hSize
      rw [if_pos hFits]
      exact body_tail limit high gathered hTail hSource
  | cons b text ih =>
      rcases List.forall_mem_cons.mp hText with
        ⟨hInner, hText⟩
      rcases hSource.demand with ⟨s, hDemand, hRest⟩
      rw [body_byte limit high gathered hDemand]
      cases hWhite : isWhitespace b with
      | true =>
          rw [if_neg (ne_close_of_white hWhite), if_pos rfl,
            visible_cons_white text hWhite]
          exact ih high hText hSize hRest
      | false =>
          have hDigit : IsDigit b := by
            rcases hInner with hDigit | hOther
            · exact hDigit
            · rw [hWhite] at hOther
              contradiction
          rcases hDigit.value with ⟨d, hValue⟩
          rw [if_neg (ne_close_of_digit hValue),
            if_neg Bool.false_ne_true, hValue,
            visible_cons text hWhite, List.length_cons]
          cases high with
          | none =>
              dsimp only
              rw [ih (some d) hText hSize hRest,
                Nat.add_comm _ 1]
              simp
          | some h =>
              dsimp only
              split
              next hRoom =>
                have hPushed :
                    (gathered.push (pair h d)).size ≤
                      limit := by
                  rwa [Array.size_push]
                have hSum :
                    (gathered.push (pair h d)).size +
                        ((none : Option Nat).toList.length +
                          (visible text).length) / 2 =
                      gathered.size +
                        ((some h).toList.length +
                          ((visible text).length + 1)) / 2 := by
                  rw [Array.size_push]
                  simp only [Option.toList, List.length_nil,
                    List.length_singleton]
                  omega
                rw [ih none hText hPushed hRest, hSum]
              next hFull =>
                -- No further byte fits, and there is one.
                rw [if_neg]
                simp only [Option.toList,
                  List.length_singleton]
                omega

/- So it is from the first byte on. -/
theorem read_stray
    {text tail : List UInt8}
    {src : σ}
    (limit : Nat)
    (hText : ∀ b ∈ text, IsInner b)
    (hTail : Stray tail)
    (hSource : Supplies src (text ++ tail)) :
    (read limit src).result =
      .error
        (if (visible text).length / 2 ≤ limit then
          .malformed
        else
          .tooLong) := by
  have hNone : (#[] : Bytes).size ≤ limit := Nat.zero_le _
  have hRead := body_stray none hText hTail hNone hSource
  simpa [read] using hRead

/- Every input is read as what it is. -/
theorem read_decided
    {src : σ}
    {input : List UInt8}
    (limit : Nat)
    (hSource : Supplies src input) :
    Decides input limit (Accepts limit src)
      (Fails limit src) := by
  refine ⟨fun bytes rest => ⟨?_, ?_⟩, ?_, ?_⟩
  · rintro ⟨s, hRead, hRest⟩
    cases split input with
    | @closed text hText more =>
        rcases exists_spells hText with ⟨spelled, hSpells⟩
        by_cases hFits : spelled.length ≤ limit
        · rcases read_spelled hSpells hFits hSource with
            ⟨s', hRead', hMore⟩
          rw [hRead] at hRead'
          injection hRead' with _ hArray hSame
          injection hArray with hBytes
          subst hSame hBytes
          rw [hRest.unique hMore]
          exact ⟨⟨text, rfl, hText, hSpells⟩, hFits⟩
        · have hError :=
            read_tooLong hSpells (Nat.lt_of_not_le hFits)
              hSource
          rw [hRead] at hError
          contradiction
    | stray hText hTail =>
        have hError := read_stray limit hText hTail hSource
        rw [hRead] at hError
        contradiction
  · rintro ⟨⟨text, rfl, -, hSpells⟩, hFits⟩
    exact read_spelled hSpells hFits hSource
  · rintro bytes rest ⟨text, rfl, -, hSpells⟩ hLimit
    exact ⟨.tooLong, read_tooLong hSpells hLimit hSource, rfl⟩
  · rintro text tail rfl hText hTail
    have hError := read_stray limit hText hTail hSource
    constructor
    · rintro bytes rest ⟨s, hRead, -⟩
      rw [hRead] at hError
      contradiction
    · refine ⟨_, hError, ?_⟩
      split <;> rfl

end PostScript.Hexadecimal
