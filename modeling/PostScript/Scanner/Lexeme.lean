import PostScript.BinaryToken
import PostScript.Environment
import PostScript.Numeric.Literal
import PostScript.Scanner.Settings
import PostScript.StringBody.Base85
import PostScript.StringBody.Hexadecimal
import PostScript.StringBody.Parenthesised

/-
  This file reads the smallest pieces of program text: objects
  other than procedures, the two braces and the end.

  Key definitions include:
    * `ScanState`
    * `Lexeme`
    * `Lexeme.skipBlanks`
    * `Lexeme.readFrom`
    * `Lexeme.read`

  Correctness is proven by:
    * `Lexeme.remaining_read_lt`
-/

namespace PostScript

------------------------------------------------------------
-- States
------------------------------------------------------------

/-
  What changes while text is read: the source, the table of
  names, the environment, and the bytes of the token that is
  being read.
-/
structure ScanState (σ ε : Type) where
  source : σ
  names : NameTable
  env : ε
  text : Bytes

/- The pieces of program text. -/
inductive Lexeme where
  | object (o : Object)
  | opening
  | closing
  | ended

namespace Lexeme

variable {σ ε : Type}
variable [ByteSource σ]
variable [Environment ε]

open ByteSource

------------------------------------------------------------
-- Blanks
------------------------------------------------------------

set_option linter.unusedVariables false in
/-
  Read a comment after its percent sign. It ends with a line
  break, a form feed or the input, and what passes the limit
  is left out.
-/
def comment
    (limit : Nat)
    (text : Bytes)
    (src : σ) : Scanned σ Unit :=
  match hNext : next src with
  | (.atEnd, s) => ⟨.ok (), text, s⟩
  | (.failed m, s) => ⟨.error (.source m), text, s⟩
  | (.byte b, s) =>
      if isEndOfLine b || b == 0x0c then
        ⟨.ok (), text, s⟩
      else if text.size < limit then
        comment limit (text.push b) s
      else
        comment limit text s
termination_by remaining src
decreasing_by
  all_goals exact remaining_byte hNext

/- A comment leaves no more bytes than there were. -/
theorem remaining_comment
    (limit : Nat)
    (text : Bytes)
    (src : σ) :
    remaining (comment limit text src).source ≤
      remaining src := by
  fun_induction comment limit text src <;>
    grind [remaining_next]

/- Whether a byte ends the input. -/
def isEndMark
    (cfg : ScanSettings)
    (b : UInt8) : Bool :=
  cfg.controlDEnds && b == 0x04

set_option linter.unusedVariables false in
/-
  Skip white space and comments up to the first byte of a
  token. A comment is handed to the environment, and after it
  no bytes of a token are held.
-/
def skipBlanks
    (cfg : ScanSettings)
    (st : ScanState σ ε) :
    Except Cause (Option UInt8) × ScanState σ ε :=
  match st with
  | ⟨src, names, env, text⟩ =>
      match hNext : next src with
      | (.atEnd, s) => (.ok none, ⟨s, names, env, text⟩)
      | (.failed m, s) =>
          (.error (.source m), ⟨s, names, env, text⟩)
      | (.byte b, s) =>
          if b == code '%' then
            match hComment : comment cfg.stringLength #[] s with
            | ⟨.error cause, gathered, s'⟩ =>
                (.error cause, ⟨s', names, env, gathered⟩)
            | ⟨.ok _, gathered, s'⟩ =>
                skipBlanks cfg
                  ⟨s', names,
                    Environment.comment env gathered, #[]⟩
          else if isEndMark cfg b then
            (.ok none, ⟨s, names, env, text⟩)
          else if isWhitespace b then
            skipBlanks cfg ⟨s, names, env, text⟩
          else
            (.ok (some b), ⟨s, names, env, text⟩)
termination_by remaining st.source
decreasing_by
  · have hLess := remaining_byte hNext
    have hLeft := remaining_comment cfg.stringLength #[] s
    rw [hComment] at hLeft
    dsimp only at hLeft ⊢
    omega
  · exact remaining_byte hNext

/- Skipping leaves no more bytes than there were. -/
theorem remaining_skipBlanks
    (cfg : ScanSettings)
    (st : ScanState σ ε) :
    remaining (skipBlanks cfg st).2.source ≤
      remaining st.source := by
  fun_induction skipBlanks cfg st <;>
    grind [remaining_next, remaining_comment]

/- A first byte of a token is gone from the source. -/
theorem remaining_skipBlanks_lt
    (cfg : ScanSettings)
    (st st' : ScanState σ ε)
    (b : UInt8)
    (h : skipBlanks cfg st = (.ok (some b), st')) :
    remaining st'.source < remaining st.source := by
  fun_induction skipBlanks cfg st <;>
    grind [→ remaining_byte, remaining_next,
      remaining_comment]

------------------------------------------------------------
-- Regular Bytes
------------------------------------------------------------

set_option linter.unusedVariables false in
/-
  Gather regular bytes. White space that ends them is read, a
  delimiter is left.
-/
def regular
    (limit : Nat)
    (text : Bytes)
    (src : σ) : Scanned σ Unit :=
  match hNext : next src with
  | (.atEnd, s) => ⟨.ok (), text, s⟩
  | (.failed m, s) => ⟨.error (.source m), text, s⟩
  | (.byte b, s) =>
      if isRegular b then
        if text.size < limit then
          regular limit (text.push b) s
        else
          ⟨.error .tooLong, text, s⟩
      else if isWhitespace b then
        ⟨.ok (), text, s⟩
      else
        ⟨.ok (), text, pushBack b s⟩
termination_by remaining src
decreasing_by
  all_goals exact remaining_byte hNext

/- Regular bytes leave no more bytes than there were. -/
theorem remaining_regular
    (limit : Nat)
    (text : Bytes)
    (src : σ) :
    remaining (regular limit text src).source ≤
      remaining src := by
  fun_induction regular limit text src <;>
    grind [remaining_next, → remaining_pushBack]

------------------------------------------------------------
-- Tokens
------------------------------------------------------------

/- The answer when nothing can begin with a byte. -/
def unexpected
    (b : UInt8)
    (st : ScanState σ ε) :
    Except Cause Object × ScanState σ ε :=
  (.error .malformed, { st with text := #[b] })

/- A name with the given bytes, found or made. -/
def nameOf
    (executable : Bool)
    (bytes : Bytes)
    (st : ScanState σ ε) :
    Except Cause Object × ScanState σ ε :=
  match st with
  | ⟨src, names, env, text⟩ =>
      match names.intern bytes with
      | (.ok name, names') =>
          (.ok (Object.name name executable),
            ⟨src, names', env, text⟩)
      | (.error cause, names') =>
          (.error cause, ⟨src, names', env, text⟩)

/- A string whose bytes have been gathered. -/
def stringOf
    (x : Scanned σ Unit)
    (st : ScanState σ ε) :
    Except Cause Object × ScanState σ ε :=
  match x with
  | ⟨.ok _, text, s⟩ =>
      (.ok (Object.string text
          (Environment.newAttrs st.env)),
        { st with source := s, text := text })
  | ⟨.error cause, text, s⟩ =>
      (.error cause, { st with source := s, text := text })

/- A string in base 85, beside the text that spells it. -/
def base85Of
    (x : Scanned σ Bytes)
    (st : ScanState σ ε) :
    Except Cause Object × ScanState σ ε :=
  match x with
  | ⟨.ok bytes, text, s⟩ =>
      (.ok (Object.string bytes
          (Environment.newAttrs st.env)),
        { st with source := s, text := text })
  | ⟨.error cause, text, s⟩ =>
      (.error cause, { st with source := s, text := text })

/- A piece that begins with `<`. -/
def openAngle
    (cfg : ScanSettings)
    (st : ScanState σ ε) :
    Except Cause Object × ScanState σ ε :=
  match next st.source with
  | (.failed m, s) =>
      (.error (.source m), { st with source := s })
  | (.atEnd, s) =>
      unexpected (code '<') { st with source := s }
  | (.byte b, s) =>
      if b == code '<' && cfg.knowsDictNames then
        nameOf true (Bytes.ofText "<<")
          { st with source := s }
      else if b == code '~' && cfg.knowsBase85 then
        base85Of (Base85.read cfg.stringLength s) st
      else
        stringOf
          (Hexadecimal.read cfg.stringLength (pushBack b s))
          st

/- A piece that begins with `>`, which must be doubled. -/
def closeAngle
    (cfg : ScanSettings)
    (st : ScanState σ ε) :
    Except Cause Object × ScanState σ ε :=
  match next st.source with
  | (.failed m, s) =>
      (.error (.source m), { st with source := s })
  | (.atEnd, s) =>
      unexpected (code '>') { st with source := s }
  | (.byte b, s) =>
      if b == code '>' && cfg.knowsDictNames then
        nameOf true (Bytes.ofText ">>")
          { st with source := s }
      else
        unexpected (code '>') { st with source := s }

/- Skip the second slash of an immediate name. -/
def secondSlash
    (src : σ) : Except Cause Bool × σ :=
  match next src with
  | (.failed m, s) => (.error (.source m), s)
  | (.atEnd, s) => (.ok false, s)
  | (.byte b, s) =>
      if b == code '/' then
        (.ok true, s)
      else
        (.ok false, pushBack b s)

/- The value of a name with the given bytes. -/
def immediateOf
    (bytes : Bytes)
    (st : ScanState σ ε) :
    Except Cause Object × ScanState σ ε :=
  match st with
  | ⟨src, names, env, text⟩ =>
      match names.intern bytes with
      | (.error cause, names') =>
          (.error cause, ⟨src, names', env, text⟩)
      | (.ok name, names') =>
          match names'.load env name with
          | (some value, names'') =>
              (.ok value, ⟨src, names'', env, text⟩)
          | (none, names'') =>
              (.error .unbound, ⟨src, names'', env, text⟩)

/- A name behind one slash or two. -/
def slashed
    (cfg : ScanSettings)
    (st : ScanState σ ε) :
    Except Cause Object × ScanState σ ε :=
  match secondSlash st.source with
  | (.error cause, s) =>
      (.error cause, { st with source := s })
  | (.ok immediate, s) =>
      match regular cfg.stringLength #[] s with
      | ⟨.error cause, text, s'⟩ =>
          (.error cause,
            { st with source := s', text := text })
      | ⟨.ok _, text, s'⟩ =>
          if immediate then
            immediateOf text
              { st with source := s', text := text }
          else
            nameOf false text
              { st with source := s', text := text }

/- A binary token. -/
def binary
    (first : UInt8)
    (st : ScanState σ ε) :
    Except Cause Object × ScanState σ ε :=
  match st with
  | ⟨src, names, env, text⟩ =>
      match BinaryToken.read first src with
      | (.error cause, s) =>
          (.error cause, ⟨s, names, env, text⟩)
      | (.ok token, s) =>
          match token.object env names with
          | .ok o names' =>
              (.ok o, ⟨s, names', env, text⟩)
          | .error cause names' =>
              (.error cause, ⟨s, names', env, text⟩)

/- A number, or an executable name. -/
def word
    (cfg : ScanSettings)
    (first : UInt8)
    (st : ScanState σ ε) :
    Except Cause Object × ScanState σ ε :=
  match regular cfg.stringLength #[first] st.source with
  | ⟨.error cause, text, s⟩ =>
      (.error cause, { st with source := s, text := text })
  | ⟨.ok _, text, s⟩ =>
      match Number.ofLiteral text.toList with
      | .error cause =>
          (.error cause,
            { st with source := s, text := text })
      | .ok (some n) =>
          (.ok (Object.ofNumber n),
            { st with source := s, text := text })
      | .ok none =>
          nameOf true text
            { st with source := s, text := text }

/- The token that begins with a byte. -/
def tokenFrom
    (cfg : ScanSettings)
    (first : UInt8)
    (st : ScanState σ ε) :
    Except Cause Object × ScanState σ ε :=
  if first == code '(' then
    stringOf
      (Parenthesised.read cfg.stringLength st.source) st
  else if first == code '<' then
    openAngle cfg st
  else if first == code '>' then
    closeAngle cfg st
  else if first == code '[' || first == code ']' then
    nameOf true #[first] st
  else if first == 0x7d || first == code ')' then
    unexpected first st
  else if first == code '/' then
    slashed cfg st
  else if BinaryToken.isLead first && cfg.binaryTokens then
    binary first st
  else
    word cfg first st

/-
  The piece that begins with a byte. A closing brace counts
  only inside a procedure.
-/
def readFrom
    (cfg : ScanSettings)
    (nested : Bool)
    (first : UInt8)
    (st : ScanState σ ε) :
    Except Cause Lexeme × ScanState σ ε :=
  if first == 0x7b then
    (.ok .opening, st)
  else if first == 0x7d && nested then
    (.ok .closing, st)
  else
    match tokenFrom cfg first st with
    | (.ok o, st') => (.ok (.object o), st')
    | (.error cause, st') => (.error cause, st')

/-
  Read the next piece. When it begins, no bytes of a token
  are held.
-/
def read
    (cfg : ScanSettings)
    (nested : Bool)
    (st : ScanState σ ε) :
    Except Cause Lexeme × ScanState σ ε :=
  match skipBlanks cfg st with
  | (.error cause, st') => (.error cause, st')
  | (.ok none, st') => (.ok .ended, st')
  | (.ok (some first), st') =>
      readFrom cfg nested first { st' with text := #[] }

------------------------------------------------------------
-- Progress
------------------------------------------------------------

/- Making a name leaves the source as it is. -/
omit [ByteSource σ] [Environment ε] in
theorem source_nameOf
    (executable : Bool)
    (bytes : Bytes)
    (st : ScanState σ ε) :
    (nameOf executable bytes st).2.source = st.source := by
  unfold nameOf
  split
  split <;> rfl

/- So does looking up an immediate name. -/
omit [ByteSource σ] in
theorem source_immediateOf
    (bytes : Bytes)
    (st : ScanState σ ε) :
    (immediateOf bytes st).2.source = st.source := by
  unfold immediateOf
  split
  split
  · rfl
  · split <;> rfl

/- A string stops where its reader stopped. -/
omit [ByteSource σ] in
theorem source_stringOf
    (x : Scanned σ Unit)
    (st : ScanState σ ε) :
    (stringOf x st).2.source = x.source := by
  unfold stringOf
  split <;> rfl

omit [ByteSource σ] in
theorem source_base85Of
    (x : Scanned σ Bytes)
    (st : ScanState σ ε) :
    (base85Of x st).2.source = x.source := by
  unfold base85Of
  split <;> rfl

/- No piece leaves more bytes than there were. -/
theorem remaining_base85
    (limit : Nat)
    (src : σ) :
    remaining (Base85.read limit src).source ≤
      remaining src := by
  have h :=
    Base85.remaining_gather (Base85.textLimit limit) #[] src
  unfold Base85.read
  split
  next hGather =>
    rw [hGather] at h
    exact h
  next hGather =>
    rw [hGather] at h
    split
    · exact h
    · split <;> exact h

theorem remaining_openAngle
    (cfg : ScanSettings)
    (st : ScanState σ ε) :
    remaining (openAngle cfg st).2.source ≤
      remaining st.source := by
  have hNext := remaining_next st.source
  unfold openAngle
  split
  next hFetch => simpa [hFetch] using hNext
  next hFetch => simpa [hFetch, unexpected] using hNext
  next b s hFetch =>
    rw [hFetch] at hNext
    split
    · rw [source_nameOf]
      exact hNext
    · split
      · rw [source_base85Of]
        exact Nat.le_trans (remaining_base85 _ s) hNext
      · rw [source_stringOf]
        exact Nat.le_trans
          (Hexadecimal.remaining_body _ _ _ _)
          (remaining_pushBack hFetch)

omit [Environment ε] in
theorem remaining_closeAngle
    (cfg : ScanSettings)
    (st : ScanState σ ε) :
    remaining (closeAngle cfg st).2.source ≤
      remaining st.source := by
  have hNext := remaining_next st.source
  unfold closeAngle
  split
  next hFetch => simpa [hFetch] using hNext
  next hFetch => simpa [hFetch, unexpected] using hNext
  next b s hFetch =>
    rw [hFetch] at hNext
    split
    · rw [source_nameOf]
      exact hNext
    · exact hNext

theorem remaining_secondSlash
    (src : σ) :
    remaining (secondSlash src).2 ≤ remaining src := by
  unfold secondSlash
  grind [remaining_next, → remaining_pushBack]

theorem remaining_slashed
    (cfg : ScanSettings)
    (st : ScanState σ ε) :
    remaining (slashed cfg st).2.source ≤
      remaining st.source := by
  have hSlash := remaining_secondSlash st.source
  unfold slashed
  split
  next hSecond => simpa [hSecond] using hSlash
  next immediate s hSecond =>
    rw [hSecond] at hSlash
    have hText := remaining_regular cfg.stringLength #[] s
    split
    next hRegular =>
      rw [hRegular] at hText
      exact Nat.le_trans hText hSlash
    next hRegular =>
      rw [hRegular] at hText
      split
      · rw [source_immediateOf]
        exact Nat.le_trans hText hSlash
      · rw [source_nameOf]
        exact Nat.le_trans hText hSlash

theorem remaining_binary
    (first : UInt8)
    (st : ScanState σ ε) :
    remaining (binary first st).2.source ≤
      remaining st.source := by
  have h := BinaryToken.remaining_read first st.source
  unfold binary
  split
  split
  next hRead => simpa [hRead] using h
  next hRead =>
    split <;> simpa [hRead] using h

omit [Environment ε] in
theorem remaining_word
    (cfg : ScanSettings)
    (first : UInt8)
    (st : ScanState σ ε) :
    remaining (word cfg first st).2.source ≤
      remaining st.source := by
  have h :=
    remaining_regular cfg.stringLength #[first] st.source
  unfold word
  split
  next hRegular => simpa [hRegular] using h
  next hRegular =>
    split
    · simpa [hRegular] using h
    · simpa [hRegular] using h
    · rw [source_nameOf]
      simpa [hRegular] using h

/- A token leaves no more bytes than there were. -/
theorem remaining_tokenFrom
    (cfg : ScanSettings)
    (first : UInt8)
    (st : ScanState σ ε) :
    remaining (tokenFrom cfg first st).2.source ≤
      remaining st.source := by
  have hString :=
    Parenthesised.remaining_body cfg.stringLength 1 #[]
      st.source
  unfold tokenFrom Parenthesised.read unexpected
  repeat' split
  all_goals
    grind only [remaining_openAngle, remaining_closeAngle,
      source_nameOf, source_stringOf, remaining_slashed,
      remaining_binary, remaining_word]

/-
  A piece that begins with a byte is not the end, and leaves
  no more bytes than there were.
-/
theorem readFrom_ne_ended
    (cfg : ScanSettings)
    (nested : Bool)
    (first : UInt8)
    (st : ScanState σ ε) :
    (readFrom cfg nested first st).1 ≠ .ok .ended := by
  unfold readFrom
  split
  · simp
  · split
    · simp
    · split <;> simp

theorem remaining_readFrom
    (cfg : ScanSettings)
    (nested : Bool)
    (first : UInt8)
    (st : ScanState σ ε) :
    remaining (readFrom cfg nested first st).2.source ≤
      remaining st.source := by
  have h := remaining_tokenFrom cfg first st
  unfold readFrom
  split
  · exact Nat.le_refl _
  · split
    · exact Nat.le_refl _
    · split <;> simp_all

/- Every piece but the end takes at least one byte. -/
theorem remaining_read_lt
    (cfg : ScanSettings)
    (nested : Bool)
    (st st' : ScanState σ ε)
    (l : Lexeme)
    (h : read cfg nested st = (.ok l, st'))
    (hl : l ≠ .ended) :
    remaining st'.source < remaining st.source := by
  unfold read at h
  split at h
  · simp at h
  · simp at h
    exact absurd h.1.symm hl
  next first st₁ hSkip =>
    have hFirst := remaining_skipBlanks_lt cfg st st₁ first
      hSkip
    have hRest := remaining_readFrom cfg nested first
      { st₁ with text := #[] }
    rw [h] at hRest
    dsimp only at hRest
    omega

end Lexeme

end PostScript
