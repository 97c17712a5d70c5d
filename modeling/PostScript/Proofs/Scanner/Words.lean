import PostScript.Proofs.Scanner.Rendered

/-
  This file shows that a token which is no number is scanned
  as an executable name with the bytes of the token, wherever
  it stands, unless it is too long.

  Key definitions include:
    * `Scanner.ScansAsName`

  Main results:
    * `Scanner.scansAsName`
-/

namespace PostScript

open ByteSource

------------------------------------------------------------
-- Tokens
------------------------------------------------------------

/-
  Between blanks and a byte that is not regular, the token is
  scanned as an executable name if it is short enough for a
  name and for the scanner, which takes every token of one
  byte. If it is longer, this is the error.
-/
def Scanner.ScansAsName
    (cfg : ScanSettings)
    (token : List UInt8) : Prop :=
  ∀ (σ ε : Type) [ByteSource σ] [Environment ε]
    (r : Rest σ ε) (blanks tail : List UInt8),
    Blanks blanks → Irregular tail →
      Supplies r.source (blanks ++ (token ++ tail)) →
        (token.length ≤
            min (max 1 cfg.stringLength) maxNameLength →
          ∃ n r',
            scan cfg r = (.ok (some (.name n true)), r') ∧
              n.bytes = token.toArray) ∧
        (min (max 1 cfg.stringLength) maxNameLength <
            token.length →
          ∃ e r',
            scan cfg r = (.error e, r') ∧
              e.kind = .limitCheck)

variable {σ ε : Type}
variable [ByteSource σ]
variable [Environment ε]
variable {cfg : ScanSettings}

namespace Lexeme

/- A token is read as the word that it is. -/
theorem read_token
    {b : UInt8}
    {bytes blanks tail : List UInt8}
    {st : ScanState σ ε}
    (nested : Bool)
    (hBlanks : Blanks blanks)
    (hToken : IsToken cfg (b :: bytes))
    (hSource :
      Supplies st.source (blanks ++ (b :: bytes ++ tail))) :
    ∃ st',
      Supplies st'.source (bytes ++ tail) ∧
        read cfg nested st =
          match word cfg b st' with
          | (.ok o, st'') => (.ok (.object o), st'')
          | (.error cause, st'') => (.error cause, st'') := by
  have hBegins := beginsObject_token hToken
  rcases read_blanks nested hBlanks hBegins.toBeginsToken
      hSource with
    ⟨st', hRead, hReaches⟩
  refine ⟨st', hReaches.source, hRead.trans ?_⟩
  rw [← tokenFrom_regular st'
    (hToken.regular b List.mem_cons_self)
    (fun hSet => hToken.notBinary hSet b rfl)]
  exact readFrom_object nested st' hBegins

/- A word that is no number becomes a name. -/
omit [Environment ε] in
theorem word_eq_nameOf
    {b : UInt8}
    {bytes tail : List UInt8}
    {st : ScanState σ ε}
    (hToken : IsToken cfg (b :: bytes))
    (hNone : Number.ofLiteral (b :: bytes) = .ok none)
    (hFits : (b :: bytes).length ≤ max 1 cfg.stringLength)
    (hEnd : Irregular tail)
    (hSource : Supplies st.source (bytes ++ tail)) :
    ∃ st' : ScanState σ ε,
      word cfg b st =
        nameOf true (b :: bytes).toArray st' := by
  rcases regular_word hToken.regular hFits hEnd hSource
    with ⟨s, left, hGather, -⟩
  refine ⟨{ st with source := s,
                    text := (b :: bytes).toArray }, ?_⟩
  unfold word
  rw [hGather]
  dsimp only
  rw [hNone]

/- Its bytes are those of the word. -/
omit [Environment ε] in
theorem word_name
    {b : UInt8}
    {bytes tail : List UInt8}
    {st : ScanState σ ε}
    (hToken : IsToken cfg (b :: bytes))
    (hNone : Number.ofLiteral (b :: bytes) = .ok none)
    (hFits :
      (b :: bytes).length ≤
        min (max 1 cfg.stringLength) maxNameLength)
    (hEnd : Irregular tail)
    (hSource : Supplies st.source (bytes ++ tail)) :
    ∃ n st',
      word cfg b st = (.ok (.name n true), st') ∧
        n.bytes = (b :: bytes).toArray := by
  rcases Nat.le_min.mp hFits with ⟨hLength, hShort⟩
  rcases word_eq_nameOf hToken hNone hLength hEnd hSource with
    ⟨⟨s, names, env, text⟩, hWord⟩
  rw [← List.size_toArray] at hShort
  rcases names.internWithin_ok hShort with
    ⟨n, names', hIntern⟩
  refine ⟨n, ⟨s, names', env, text⟩, ?_,
    (NameTable.holds_of_internWithin hIntern).2⟩
  rw [hWord, nameOf, NameTable.intern, hIntern]

/- A word that is too long is refused. -/
omit [Environment ε] in
theorem word_tooLong
    {b : UInt8}
    {bytes tail : List UInt8}
    {st : ScanState σ ε}
    (hToken : IsToken cfg (b :: bytes))
    (hNone : Number.ofLiteral (b :: bytes) = .ok none)
    (hLong :
      min (max 1 cfg.stringLength) maxNameLength <
        (b :: bytes).length)
    (hEnd : Irregular tail)
    (hSource : Supplies st.source (bytes ++ tail)) :
    ∃ st', word cfg b st = (.error .tooLong, st') := by
  by_cases hFits :
      (b :: bytes).length ≤ max 1 cfg.stringLength
  · rcases word_eq_nameOf hToken hNone hFits hEnd hSource with
      ⟨⟨s, names, env, text⟩, hWord⟩
    have hIntern :
        names.intern (b :: bytes).toArray =
          (.error .tooLong, names) :=
      if_pos (by rw [List.size_toArray]; omega)
    refine ⟨⟨s, names, env, text⟩, ?_⟩
    rw [hWord, nameOf, hIntern]
  · -- The bytes are given up before the token ends.
    have hGather :
        (regular cfg.stringLength #[b] st.source).result =
          .error .tooLong := by
      apply regular_tooLong _ _ hSource
      · exact fun c hc =>
          hToken.regular c (List.mem_cons_of_mem _ hc)
      · rw [List.length_cons] at hFits
        change max 1 cfg.stringLength < 1 + bytes.length
        omega
    unfold word
    split
    next hRegular =>
      rw [hRegular] at hGather
      rw [Except.error.inj hGather]
      exact ⟨_, rfl⟩
    next hRegular =>
      rw [hRegular] at hGather
      contradiction

end Lexeme

namespace Scanner

/- A token that is no number is scanned as a name. -/
theorem scansAsName
    {token : List UInt8}
    (hToken : IsToken cfg token)
    (hNone : Number.ofLiteral token = .ok none) :
    ScansAsName cfg token := by
  intro σ ε _ _ r blanks tail hBlanks hEnd hSource
  rcases r with ⟨source, names, env⟩
  cases token with
  | nil => exact absurd rfl hToken.nonempty
  | cons b bytes =>
      rcases @Lexeme.read_token σ ε _ _ cfg b bytes blanks
          tail ⟨source, names, env, #[]⟩ false hBlanks hToken
          hSource with
        ⟨st', hRest, hRead⟩
      constructor
      · intro hFits
        rcases Lexeme.word_name hToken hNone hFits hEnd hRest
          with ⟨n, st'', hWord, hBytes⟩
        rw [hWord] at hRead
        have hObject :
            readObject cfg [] ⟨source, names, env, #[]⟩ =
              (.ok (some (.name n true)), st'') := by
          rw [readObject_step, List.isEmpty_nil,
            Bool.not_true, hRead]
          rfl
        exact ⟨n, _, scan_eq hObject, hBytes⟩
      · intro hLong
        rcases Lexeme.word_tooLong hToken hNone hLong hEnd
            hRest with
          ⟨st'', hWord⟩
        rw [hWord] at hRead
        refine ⟨.inToken .tooLong st''.text,
          ⟨st''.source, st''.names, st''.env⟩, ?_, rfl⟩
        unfold scan
        dsimp only
        rw [readObject_step, List.isEmpty_nil, Bool.not_true,
          hRead]

end Scanner

end PostScript
