import PostScript.Proofs.Scanner.Tokens
import PostScript.Proofs.StringBody.Stray

/-
  This file shows that what the scanner makes of an opening
  bracket is decided by the text behind it, as it is where the
  string alone is read: only a second bracket and a tilde are
  taken for something else, at levels that know them.

  Key definitions include:
    * `Lexeme.AcceptsString`
    * `Lexeme.Refuses`

  Main results:
    * `Lexeme.read_bracket`
    * `Lexeme.hexadecimal_decided`
-/

namespace PostScript

open ByteSource

variable {σ ε : Type}
variable [ByteSource σ]
variable [Environment ε]
variable {cfg : ScanSettings}

namespace Lexeme

/-
  The next piece is the string of these bytes, new in the
  environment, and the source is left at the rest.
-/
def AcceptsString
    (cfg : ScanSettings)
    (nested : Bool)
    (st : ScanState σ ε)
    (bytes rest : List UInt8) : Prop :=
  ∃ st',
    read cfg nested st =
        (.ok (.object (.string bytes.toArray
          (Environment.newAttrs st'.env))), st') ∧
      Supplies st'.source rest

/- The next piece is an error of this kind. -/
def Refuses
    (cfg : ScanSettings)
    (nested : Bool)
    (st : ScanState σ ε)
    (kind : ErrorKind) : Prop :=
  ∃ cause st', read cfg nested st = (.error cause, st') ∧
    cause.kind = kind

/- A bracket behind which the text ends begins nothing. -/
theorem openAngle_atEnd
    (cfg : ScanSettings)
    {st : ScanState σ ε}
    (hSource : Supplies st.source []) :
    ∃ st', openAngle cfg st = (.error .malformed, st') := by
  rcases hSource.atEnd with ⟨s, hNext, -⟩
  unfold openAngle
  rw [hNext]
  exact ⟨_, rfl⟩

/- A bracket is read behind blanks. -/
theorem read_bracket
    (cfg : ScanSettings)
    {st : ScanState σ ε}
    {blanks input : List UInt8}
    (nested : Bool)
    (hBlanks : Blanks blanks)
    (hSource :
      Supplies st.source (blanks ++ code '<' :: input)) :
    ∃ st₁,
      Supplies st₁.source input ∧
        read cfg nested st =
          match openAngle cfg st₁ with
          | (.ok o, st') => (.ok (.object o), st')
          | (.error cause, st') => (.error cause, st') := by
  have hBegins :=
    beginsObject_delimiter cfg (.inr (.inl rfl))
  rcases read_blanks nested hBlanks hBegins.toBeginsToken
      hSource with
    ⟨st₁, hRead, hReaches⟩
  exact ⟨st₁, hReaches.source,
    hRead.trans (readFrom_object nested st₁ hBegins)⟩

/- What a string reader accepts is a string. -/
theorem acceptsString_iff
    {x : Scanned σ Unit}
    {st st₁ : ScanState σ ε}
    {nested : Bool}
    (hRead :
      read cfg nested st =
        match stringOf x st₁ with
        | (.ok o, st') => (.ok (.object o), st')
        | (.error cause, st') => (.error cause, st'))
    (bytes rest : List UInt8) :
    AcceptsString cfg nested st bytes rest ↔
      ∃ s, x = ⟨.ok (), bytes.toArray, s⟩ ∧
        Supplies s rest := by
  rw [AcceptsString, hRead]
  constructor
  · rintro ⟨st', hString, hRest⟩
    rcases x with ⟨cause | _, text, s⟩
    · cases congrArg Prod.fst hString
    · injection hString with hObject hState
      subst hState
      injection hObject with hObject
      injection hObject with hObject
      injection hObject with hAtom
      injection hAtom with hText
      subst hText
      exact ⟨s, rfl, hRest⟩
  · rintro ⟨s, rfl, hRest⟩
    exact ⟨{ st₁ with source := s, text := bytes.toArray },
      rfl, hRest⟩

/- What it fails on is refused. -/
theorem refuses_of_error
    {x : Scanned σ Unit}
    {st st₁ : ScanState σ ε}
    {nested : Bool}
    {cause : Cause}
    (hRead :
      read cfg nested st =
        match stringOf x st₁ with
        | (.ok o, st') => (.ok (.object o), st')
        | (.error cause, st') => (.error cause, st'))
    (hError : x.result = .error cause) :
    Refuses cfg nested st cause.kind := by
  rcases x with ⟨result, text, s⟩
  subst hError
  exact ⟨cause, _, hRead, rfl⟩

/-
  Strings of hexadecimal digits are decided by their text: by
  their reader, whatever the limit, and where the scanner
  comes to them behind blanks, with its limit for strings.
-/
theorem hexadecimal_decided :
    (∀ (limit : Nat) (src : σ) (input : List UInt8),
      Supplies src input →
        Hexadecimal.Decides input limit
          (Hexadecimal.Accepts limit src)
          (Hexadecimal.Fails limit src)) ∧
      (∀ (cfg : ScanSettings) (nested : Bool)
        (st : ScanState σ ε) (blanks input : List UInt8),
        Blanks blanks →
          Supplies st.source (blanks ++ code '<' :: input) →
            Hexadecimal.Begins cfg input →
              Hexadecimal.Decides input cfg.stringLength
                (AcceptsString cfg nested st)
                (Refuses cfg nested st)) := by
  refine ⟨fun limit src input =>
    Hexadecimal.read_decided limit, ?_⟩
  intro cfg nested st blanks input hBlanks hSource hBegins
  rcases read_bracket cfg nested hBlanks hSource with
    ⟨st₁, hInput, hRead⟩
  by_cases hEmpty : input = []
  · -- No byte is given back, so nothing is read as a string.
    subst hEmpty
    rcases openAngle_atEnd cfg hInput with ⟨st', hAngle⟩
    rw [hAngle] at hRead
    refine Hexadecimal.decides_nil _ ?_ ⟨_, _, hRead, rfl⟩
    rintro bytes rest ⟨st'', hString, -⟩
    rw [hRead] at hString
    cases congrArg Prod.fst hString
  · rcases openAngle_hexadecimal hBegins hEmpty hInput with
      ⟨s, hAngle, hGiven⟩
    rw [hAngle] at hRead
    refine (Hexadecimal.read_decided _ hGiven).imp
      (acceptsString_iff hRead) ?_
    rintro kind ⟨cause, hError, rfl⟩
    exact refuses_of_error hRead hError

/-
  Two digits and one more are two bytes behind white space,
  for the reader and for the scanner.
-/
theorem hexadecimal_decided_odd :
    Hexadecimal.Accepts 2
        (Reader.ofList (Bytes.ofText "4 14>x").toList)
        [0x41, 0x40] [code 'x'] ∧
      AcceptsString { stringLength := 2 } false
        (⟨Reader.ofList (Bytes.ofText " <4 14>x").toList,
          .initial, (), #[]⟩ : ScanState Reader Unit)
        [0x41, 0x40] [code 'x'] := by
  have hInner :
      (Bytes.ofText "4 14").toList.all
        (fun b => decide (Hexadecimal.IsInner b)) = true := by
    decide
  have hClosed :
      Hexadecimal.Closed (Bytes.ofText "4 14>x").toList
        [0x41, 0x40] [code 'x'] := by
    refine ⟨(Bytes.ofText "4 14").toList, rfl, ?_, ?_⟩
    · exact fun b hb =>
        of_decide_eq_true (List.all_eq_true.mp hInner b hb)
    · exact .pair (h := 4) (l := 1) (by decide) (by decide)
        (.odd (h := 4) (by decide))
  have hBlanks : Blanks [code ' '] := .white rfl .nil
  have hBegins :
      Hexadecimal.Begins { stringLength := 2 }
        (Bytes.ofText "4 14>x").toList :=
    ⟨by decide, by decide⟩
  have hDecided := @hexadecimal_decided Reader Unit _ _
  constructor
  · exact ((hDecided.1 2 _ _ (Reader.supplies _)).accepted
      _ _).mpr ⟨hClosed, by decide⟩
  · exact ((hDecided.2 _ false _ _ _ hBlanks
      (Reader.supplies _) hBegins).accepted _ _).mpr
        ⟨hClosed, by decide⟩

end Lexeme

end PostScript
