import PostScript.Proofs.Source.Supply
import PostScript.Scanner.Lexeme

/-
  This file describes what may stand between the tokens of a
  program, white space and comments, and shows that the
  scanner skips it. It also shows what is gathered where
  regular bytes end.

  Key definitions include:
    * `Blanks`
    * `TokenEnd`
    * `Irregular`
    * `Follows`
    * `Environment.Hears`

  Main results:
    * `Lexeme.skipBlanks_blanks`
    * `Lexeme.skipBlanks_token`
    * `Lexeme.regular_token`
-/

namespace PostScript

open ByteSource

------------------------------------------------------------
-- Blanks
------------------------------------------------------------

/- A comment ends with a line break or a form feed. -/
def endsComment
    (b : UInt8) : Bool :=
  isEndOfLine b || b == 0x0c

/- Any mix of white space and comments, also none. -/
inductive Blanks : List UInt8 → Prop where
  | nil :
      Blanks []
  | white
      {b : UInt8}
      {rest : List UInt8}
      (hWhite : isWhitespace b = true)
      (hRest : Blanks rest) :
      Blanks (b :: rest)
  | comment
      {body rest : List UInt8}
      {e : UInt8}
      (hBody : ∀ b ∈ body, endsComment b = false)
      (hEnd : endsComment e = true)
      (hRest : Blanks rest) :
      Blanks (code '%' :: (body ++ e :: rest))

/- The byte that begins a comment is no white space. -/
theorem isWhitespace_percent :
    isWhitespace (code '%') = false := by
  decide

/- White space may be taken off blanks. -/
theorem Blanks.tail
    {b : UInt8}
    {rest : List UInt8}
    (h : Blanks (b :: rest))
    (hWhite : isWhitespace b = true) :
    Blanks rest := by
  cases h with
  | white _ hRest => exact hRest
  | comment =>
      rw [isWhitespace_percent] at hWhite
      contradiction

/-
  What stands behind a token: nothing, white space, a comment
  or the end of a procedure.
-/
def TokenEnd
    (text : List UInt8) : Prop :=
  ∀ b rest, text = b :: rest →
    isWhitespace b = true ∨ b = code '%' ∨ b = 0x7d

/- No regular byte stands behind a token. -/
theorem TokenEnd.not_regular
    {b : UInt8}
    {rest : List UInt8}
    (h : TokenEnd (b :: rest)) :
    isRegular b = false := by
  unfold isRegular
  rcases h b rest rfl with hWhite | rfl | rfl
  · rw [hWhite]
    rfl
  · decide
  · decide

/- A text does not begin with a regular byte. -/
def Irregular
    (text : List UInt8) : Prop :=
  ∀ b, text.head? = some b → isRegular b = false

/- So it is with what stands behind a token. -/
theorem TokenEnd.irregular
    {text : List UInt8}
    (h : TokenEnd text) :
    Irregular text := by
  intro b hHead
  rcases List.head?_eq_some_iff.mp hHead with ⟨rest, rfl⟩
  exact h.not_regular

/- No slash stands behind a token. -/
theorem TokenEnd.ne_slash
    {b : UInt8}
    {rest : List UInt8}
    (h : TokenEnd (b :: rest)) :
    b ≠ code '/' := by
  rintro rfl
  have hNone := h _ rest rfl
  revert hNone
  decide

/-
  What is left of the text behind a token: all of it, or all
  but one byte of white space.
-/
def Follows
    (text left : List UInt8) : Prop :=
  left = text ∨
    ∃ b, isWhitespace b = true ∧ text = b :: left

------------------------------------------------------------
-- Comments
------------------------------------------------------------

section Hearing

variable {ε : Type}
variable [Environment ε]

/- An environment after it has heard some comments. -/
def Environment.Hears
    (env env' : ε) : Prop :=
  ∃ heard : List Bytes,
    heard.foldl Environment.comment env = env'

/- No comment is heard at first. -/
theorem Environment.Hears.refl
    (env : ε) :
    Environment.Hears env env :=
  ⟨[], rfl⟩

/- One more comment is heard. -/
theorem Environment.hears_comment
    (env : ε)
    (text : Bytes) :
    Environment.Hears env (Environment.comment env text) :=
  ⟨[text], rfl⟩

/- Comments are heard one after another. -/
theorem Environment.Hears.trans
    {env₁ env₂ env₃ : ε}
    (h₁ : Environment.Hears env₁ env₂)
    (h₂ : Environment.Hears env₂ env₃) :
    Environment.Hears env₁ env₃ := by
  rcases h₁ with ⟨heard₁, rfl⟩
  rcases h₂ with ⟨heard₂, rfl⟩
  exact ⟨heard₁ ++ heard₂, List.foldl_append⟩

end Hearing

namespace Lexeme

variable {σ : Type}
variable [ByteSource σ]

/- A comment goes on by the first byte there is. -/
theorem comment_eq
    (limit : Nat)
    (text : Bytes)
    (src : σ) :
    comment limit text src =
      match next src with
      | (.atEnd, s) => ⟨.ok (), text, s⟩
      | (.failed m, s) => ⟨.error (.source m), text, s⟩
      | (.byte b, s) =>
          if endsComment b then
            ⟨.ok (), text, s⟩
          else
            comment limit
              (if text.size < limit then text.push b else text)
              s := by
  rw [comment]
  split <;> rename_i hNext <;> rw [hNext]
  unfold endsComment
  dsimp only
  split
  · rfl
  · split <;> rfl

/- The same where the byte is known. -/
theorem comment_byte
    {src s : σ}
    {b : UInt8}
    (limit : Nat)
    (text : Bytes)
    (hNext : next src = (.byte b, s)) :
    comment limit text src =
      if endsComment b then
        ⟨.ok (), text, s⟩
      else
        comment limit
          (if text.size < limit then text.push b else text)
          s := by
  rw [comment_eq, hNext]

/- A comment is read up to the byte that ends it. -/
theorem comment_body
    {body tail : List UInt8}
    {e : UInt8}
    {src : σ}
    (limit : Nat)
    (text : Bytes)
    (hBody : ∀ b ∈ body, endsComment b = false)
    (hEnd : endsComment e = true)
    (hSource : Supplies src (body ++ e :: tail)) :
    ∃ gathered s,
      comment limit text src = ⟨.ok (), gathered, s⟩ ∧
        Supplies s tail := by
  induction body generalizing text src with
  | nil =>
      rcases hSource.byte with ⟨s, hNext, hRest, -⟩
      refine ⟨text, s, ?_, hRest⟩
      rw [comment_byte limit text hNext, if_pos hEnd]
  | cons b body ih =>
      rcases hSource.byte with ⟨s, hNext, hRest, -⟩
      have hGoesOn : ¬ endsComment b = true := by
        rw [hBody b List.mem_cons_self]
        exact Bool.false_ne_true
      rw [comment_byte limit text hNext, if_neg hGoesOn]
      exact ih _
        (fun c hc => hBody c (List.mem_cons_of_mem _ hc))
        hRest

------------------------------------------------------------
-- Skipping
------------------------------------------------------------

section Skipping

variable {ε : Type}
variable [Environment ε]

/- What skipping does with the first byte there is. -/
theorem skipBlanks_eq
    (cfg : ScanSettings)
    (src : σ)
    (names : NameTable)
    (env : ε)
    (text : Bytes) :
    skipBlanks cfg ⟨src, names, env, text⟩ =
      match next src with
      | (.atEnd, s) => (.ok none, ⟨s, names, env, text⟩)
      | (.failed m, s) =>
          (.error (.source m), ⟨s, names, env, text⟩)
      | (.byte b, s) =>
          if b == code '%' then
            match comment cfg.stringLength #[] s with
            | ⟨.error cause, gathered, s'⟩ =>
                (.error cause, ⟨s', names, env, gathered⟩)
            | ⟨.ok _, gathered, s'⟩ =>
                skipBlanks cfg
                  ⟨s', names,
                    Environment.comment env gathered, #[]⟩
          else if isEndMark cfg b then
            (.ok none, ⟨s, names, env, text⟩)
          else if isWhitespace b then
            skipBlanks cfg ⟨s, names, env, text⟩
          else
            (.ok (some b), ⟨s, names, env, text⟩) := by
  rw [skipBlanks]
  split <;> rename_i hNext <;> rw [hNext]
  dsimp only
  split
  · split <;> rename_i hComment <;> rw [hComment]
  · rfl

/- The same where the byte is known. -/
theorem skipBlanks_byte
    {src s : σ}
    {b : UInt8}
    (cfg : ScanSettings)
    (names : NameTable)
    (env : ε)
    (text : Bytes)
    (hNext : next src = (.byte b, s)) :
    skipBlanks cfg ⟨src, names, env, text⟩ =
      if b == code '%' then
        match comment cfg.stringLength #[] s with
        | ⟨.error cause, gathered, s'⟩ =>
            (.error cause, ⟨s', names, env, gathered⟩)
        | ⟨.ok _, gathered, s'⟩ =>
            skipBlanks cfg
              ⟨s', names,
                Environment.comment env gathered, #[]⟩
      else if isEndMark cfg b then
        (.ok none, ⟨s, names, env, text⟩)
      else if isWhitespace b then
        skipBlanks cfg ⟨s, names, env, text⟩
      else
        (.ok (some b), ⟨s, names, env, text⟩) := by
  rw [skipBlanks_eq, hNext]

/- White space is skipped. -/
theorem skipBlanks_white
    {src s : σ}
    {b : UInt8}
    (cfg : ScanSettings)
    (names : NameTable)
    (env : ε)
    (text : Bytes)
    (hNext : next src = (.byte b, s))
    (hWhite : isWhitespace b = true) :
    skipBlanks cfg ⟨src, names, env, text⟩ =
      skipBlanks cfg ⟨s, names, env, text⟩ := by
  have hPercent : ¬ (b == code '%') = true := by
    rw [beq_iff_eq]
    rintro rfl
    rw [isWhitespace_percent] at hWhite
    contradiction
  have hMark : ¬ isEndMark cfg b = true := by
    unfold isEndMark
    rw [Bool.and_eq_true, beq_iff_eq]
    rintro ⟨-, rfl⟩
    revert hWhite
    decide
  rw [skipBlanks_byte cfg names env text hNext,
    if_neg hPercent, if_neg hMark, if_pos hWhite]

/- Blanks are skipped, and their comments are heard. -/
theorem skipBlanks_blanks
    {blanks tail : List UInt8}
    {src : σ}
    (cfg : ScanSettings)
    (names : NameTable)
    (env : ε)
    (text : Bytes)
    (hBlanks : Blanks blanks)
    (hSource : Supplies src (blanks ++ tail)) :
    ∃ s env' text',
      skipBlanks cfg ⟨src, names, env, text⟩ =
          skipBlanks cfg ⟨s, names, env', text'⟩ ∧
        Supplies s tail ∧ Environment.Hears env env' := by
  induction hBlanks generalizing src env text with
  | nil => exact ⟨src, env, text, rfl, hSource, .refl env⟩
  | white hWhite _ ih =>
      rcases hSource.byte with ⟨s, hNext, hRest, -⟩
      rw [skipBlanks_white cfg names env text hNext hWhite]
      exact ih env text hRest
  | @comment body rest e hBody hEnd _ ih =>
      rw [List.cons_append, List.append_assoc,
        List.cons_append] at hSource
      rcases hSource.byte with ⟨s, hNext, hRest, -⟩
      rcases comment_body cfg.stringLength #[] hBody hEnd
          hRest with
        ⟨gathered, s', hComment, hBehind⟩
      rw [skipBlanks_byte cfg names env text hNext,
        if_pos (beq_self_eq_true _), hComment]
      rcases ih (Environment.comment env gathered) #[]
          hBehind with
        ⟨s'', env', text', hSkip, hTail, hHears⟩
      exact ⟨s'', env', text', hSkip, hTail,
        (Environment.hears_comment env gathered).trans
          hHears⟩

/- A byte that is not skipped begins a token. -/
structure BeginsToken
    (cfg : ScanSettings)
    (b : UInt8) : Prop where
  notWhite : isWhitespace b = false
  notComment : b ≠ code '%'
  notEnd : isEndMark cfg b = false

/- The first byte of a token stops the skipping. -/
theorem skipBlanks_token
    {src : σ}
    {b : UInt8}
    {rest : List UInt8}
    {cfg : ScanSettings}
    (names : NameTable)
    (env : ε)
    (text : Bytes)
    (hBegins : BeginsToken cfg b)
    (hSource : Supplies src (b :: rest)) :
    ∃ s,
      skipBlanks cfg ⟨src, names, env, text⟩ =
          (.ok (some b), ⟨s, names, env, text⟩) ∧
        Supplies s rest := by
  rcases hSource.byte with ⟨s, hNext, hRest, -⟩
  refine ⟨s, ?_, hRest⟩
  rw [skipBlanks_byte cfg names env text hNext]
  simp [hBegins.notComment, hBegins.notEnd,
    hBegins.notWhite]

/- So does the end of the text. -/
theorem skipBlanks_atEnd
    {src : σ}
    (cfg : ScanSettings)
    (names : NameTable)
    (env : ε)
    (text : Bytes)
    (hSource : Supplies src []) :
    ∃ s,
      skipBlanks cfg ⟨src, names, env, text⟩ =
          (.ok none, ⟨s, names, env, text⟩) ∧
        Supplies s [] := by
  rcases hSource.atEnd with ⟨s, hNext, hRest⟩
  refine ⟨s, ?_, hRest⟩
  rw [skipBlanks_eq, hNext]

end Skipping

------------------------------------------------------------
-- Regular Bytes
------------------------------------------------------------

/- The first byte there is where regular bytes are gathered. -/
theorem regular_eq
    (limit : Nat)
    (text : Bytes)
    (src : σ) :
    regular limit text src =
      match next src with
      | (.atEnd, s) => ⟨.ok (), text, s⟩
      | (.failed m, s) => ⟨.error (.source m), text, s⟩
      | (.byte b, s) =>
          if isRegular b then
            if text.size < limit then
              regular limit (text.push b) s
            else
              ⟨.error .tooLong, text, s⟩
          else if isWhitespace b then
            ⟨.ok (), text, s⟩
          else
            ⟨.ok (), text, pushBack b s⟩ := by
  rw [regular]
  split <;> rename_i hNext <;> rw [hNext]

/- The same where the byte is known. -/
theorem regular_byte
    {src s : σ}
    {b : UInt8}
    (limit : Nat)
    (text : Bytes)
    (hNext : next src = (.byte b, s)) :
    regular limit text src =
      if isRegular b then
        if text.size < limit then
          regular limit (text.push b) s
        else
          ⟨.error .tooLong, text, s⟩
      else if isWhitespace b then
        ⟨.ok (), text, s⟩
      else
        ⟨.ok (), text, pushBack b s⟩ := by
  rw [regular_eq, hNext]

/-
  Regular bytes are gathered up to a byte that is none, and
  one byte of white space there is read. The limit is asked
  before a byte is added, not for what is there already.
-/
theorem regular_token
    {bytes tail : List UInt8}
    {src : σ}
    {limit : Nat}
    {text : Bytes}
    (hRegular : ∀ b ∈ bytes, isRegular b = true)
    (hEnd : Irregular tail)
    (hLimit : text.size + bytes.length ≤ max text.size limit)
    (hSource : Supplies src (bytes ++ tail)) :
    ∃ s tail',
      regular limit text src =
          ⟨.ok (), text ++ bytes.toArray, s⟩ ∧
        Supplies s tail' ∧ Follows tail tail' := by
  induction bytes generalizing text src with
  | nil =>
      rw [List.nil_append] at hSource
      cases tail with
      | nil =>
          rcases hSource.atEnd with ⟨s, hNext, hRest⟩
          refine ⟨s, [], ?_, hRest, .inl rfl⟩
          rw [regular_eq, hNext]
          simp
      | cons b rest =>
          rcases hSource.byte with ⟨s, hNext, hRest, hBack⟩
          rw [regular_byte limit text hNext, hEnd b rfl]
          cases hWhite : isWhitespace b with
          | true =>
              exact ⟨s, rest, by simp, hRest,
                .inr ⟨b, hWhite, rfl⟩⟩
          | false =>
              exact ⟨pushBack b s, b :: rest, by simp, hBack,
                .inl rfl⟩
  | cons b bytes ih =>
      rw [List.length_cons] at hLimit
      have hRoom : text.size < limit := by omega
      have hFits :
          (text.push b).size + bytes.length ≤
            max (text.push b).size limit := by
        rw [Array.size_push]
        omega
      rcases hSource.byte with ⟨s, hNext, hRest, -⟩
      rcases ih
          (fun c hc => hRegular c (List.mem_cons_of_mem _ hc))
          hFits hRest with
        ⟨s', tail', hGather, hTail, hFollows⟩
      refine ⟨s', tail', ?_, hTail, hFollows⟩
      rw [regular_byte limit text hNext,
        if_pos (hRegular b List.mem_cons_self),
        if_pos hRoom, hGather, push_append]

/- Too many of them are given up. -/
theorem regular_tooLong
    {bytes tail : List UInt8}
    {src : σ}
    {limit : Nat}
    {text : Bytes}
    (hRegular : ∀ b ∈ bytes, isRegular b = true)
    (hLimit : max text.size limit < text.size + bytes.length)
    (hSource : Supplies src (bytes ++ tail)) :
    (regular limit text src).result = .error .tooLong := by
  induction bytes generalizing text src with
  | nil =>
      rw [List.length_nil] at hLimit
      omega
  | cons b bytes ih =>
      rcases hSource.byte with ⟨s, hNext, hRest, -⟩
      rw [regular_byte limit text hNext,
        if_pos (hRegular b List.mem_cons_self)]
      split
      next hRoom =>
        rw [List.length_cons] at hLimit
        apply ih
        · exact fun c hc =>
            hRegular c (List.mem_cons_of_mem _ hc)
        · -- The last byte that fits is not the last one.
          rw [Array.size_push]
          omega
        · exact hRest
      next => rfl

end Lexeme

end PostScript
