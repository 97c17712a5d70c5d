import PostScript.Proofs.BinaryToken.Extent
import PostScript.Proofs.Scanner.Tokens
import PostScript.Proofs.StringBody.Tracking

/-
  This file shows that pieces of program text are read alike
  from sources that go on alike. Where the first source ends
  between two pieces, the second goes on with its own.

  Key definitions include:
    * `ScanState.Over`
    * `Passes`

  Main results:
    * `Lexeme.tokenFrom_agree`
    * `Lexeme.skipBlanks_passes`
    * `Lexeme.read_passes`
-/

namespace PostScript

open ByteSource

variable {σ₁ σ₂ ε : Type}

------------------------------------------------------------
-- States
------------------------------------------------------------

/- States that differ in their sources alone. -/
inductive ScanState.Over
    (T : σ₁ → σ₂ → Prop) :
    ScanState σ₁ ε → ScanState σ₂ ε → Prop where
  | intro
      {s₁ : σ₁}
      {s₂ : σ₂}
      (hSame : T s₁ s₂)
      (names : NameTable)
      (env : ε)
      (text : Bytes) :
      ScanState.Over T ⟨s₁, names, env, text⟩
        ⟨s₂, names, env, text⟩

namespace ScanState.Over

variable {T T' : σ₁ → σ₂ → Prop}
variable {st₁ : ScanState σ₁ ε}
variable {st₂ : ScanState σ₂ ε}

/- Less may be said about the sources. -/
theorem mono
    (h : Over T st₁ st₂)
    (hT : ∀ {s₁ s₂}, T s₁ s₂ → T' s₁ s₂) :
    Over T' st₁ st₂ := by
  cases h with
  | intro hSame => exact .intro (hT hSame) _ _ _

/- The sources are related. -/
theorem source
    (h : Over T st₁ st₂) :
    T st₁.source st₂.source := by
  cases h with
  | intro hSame => exact hSame

/- The environments are the same. -/
theorem env_eq
    (h : Over T st₁ st₂) :
    st₂.env = st₁.env := by
  cases h
  rfl

end ScanState.Over

------------------------------------------------------------
-- Ends
------------------------------------------------------------

/-
  Two readings that agree, or of which the first comes to the
  end of its text while the second reads `again` behind it.
  Where both come to an end, it is for the reason `Stays`.
-/
inductive Passes
    {κ τ₁ τ₂ α : Type}
    (Gap : κ → Prop)
    (T P : τ₁ → τ₂ → Prop)
    (Stays : Prop)
    (last : α)
    (again : τ₂ → Except κ α × τ₂) :
    Except κ α × τ₁ → Except κ α × τ₂ → Prop where
  | same
      (result : Except κ α)
      {s₁ : τ₁}
      {s₂ : τ₂}
      (hSame : T s₁ s₂)
      (hLast : result = .ok last → Stays) :
      Passes Gap T P Stays last again (result, s₁) (result, s₂)
  | past
      {s₁ : τ₁}
      {s₂ : τ₂}
      (hPast : P s₁ s₂) :
      Passes Gap T P Stays last again (.ok last, s₁) (again s₂)
  | gap
      {cause : κ}
      (hGap : Gap cause)
      (s₁ : τ₁)
      (x₂ : Except κ α × τ₂) :
      Passes Gap T P Stays last again (.error cause, s₁) x₂

/- Readings agree where the text does not end. -/
theorem Agree.passes
    {τ₁ τ₂ α : Type}
    {Gap : Cause → Prop}
    {T P : τ₁ → τ₂ → Prop}
    {Stays : Prop}
    {last : α}
    {again : τ₂ → Except Cause α × τ₂}
    {x₁ : Except Cause α × τ₁}
    {x₂ : Except Cause α × τ₂}
    (h : Agree Gap T x₁ x₂)
    (hNot : x₁.1 ≠ .ok last) :
    Passes Gap T P Stays last again x₁ x₂ := by
  cases h with
  | same result hSame =>
      exact .same result hSame (fun hLast => absurd hLast hNot)
  | gap hGap => exact .gap hGap _ _

/- Readings that fail alike do not come to an end. -/
theorem Passes.failed
    {τ₁ τ₂ α κ : Type}
    {Gap : κ → Prop}
    {T P : τ₁ → τ₂ → Prop}
    {Stays : Prop}
    {last : α}
    {again : τ₂ → Except κ α × τ₂}
    (cause : κ)
    {s₁ : τ₁}
    {s₂ : τ₂}
    (hSame : T s₁ s₂) :
    Passes Gap T P Stays last again (.error cause, s₁)
      (.error cause, s₂) := by
  refine .same _ hSame ?_
  intro hLast
  contradiction

open ScanState

section Made

variable {Gap : Cause → Prop}
variable {T T' : σ₁ → σ₂ → Prop}

namespace Lexeme

/- A name is made of the same names. -/
theorem nameOf_agree
    (executable : Bool)
    (bytes : Bytes)
    {st₁ : ScanState σ₁ ε}
    {st₂ : ScanState σ₂ ε}
    (hOver : Over T st₁ st₂) :
    Agree Gap (Over T) (nameOf executable bytes st₁)
      (nameOf executable bytes st₂) := by
  cases hOver with
  | intro hSame names env text =>
      unfold nameOf
      dsimp only
      rcases names.intern bytes with ⟨cause | n, names'⟩ <;>
        exact .same _ (.intro hSame _ _ _)

variable [Environment ε]

/- So is the value of an immediate name. -/
theorem immediateOf_agree
    (bytes : Bytes)
    {st₁ : ScanState σ₁ ε}
    {st₂ : ScanState σ₂ ε}
    (hOver : Over T st₁ st₂) :
    Agree Gap (Over T) (immediateOf bytes st₁)
      (immediateOf bytes st₂) := by
  cases hOver with
  | intro hSame names env text =>
      unfold immediateOf
      dsimp only
      rcases names.intern bytes with ⟨cause | n, names'⟩
      · exact .same _ (.intro hSame _ _ _)
      · dsimp only
        rcases names'.load env n with ⟨_ | value, names''⟩ <;>
          exact .same _ (.intro hSame _ _ _)

/- A string is made of what has been gathered. -/
theorem stringOf_agree
    {x₁ : Scanned σ₁ Unit}
    {x₂ : Scanned σ₂ Unit}
    (hBytes : Scanned.Agree Gap T x₁ x₂)
    {st₁ : ScanState σ₁ ε}
    {st₂ : ScanState σ₂ ε}
    (hOver : Over T' st₁ st₂) :
    Agree Gap (Over T) (stringOf x₁ st₁) (stringOf x₂ st₂) := by
  cases hOver with
  | intro _ names env text =>
      cases hBytes with
      | gap hGap => exact .gap hGap _ _
      | same result text hSame =>
          cases result <;>
            exact .same _ (.intro hSame _ _ _)

theorem base85Of_agree
    {x₁ : Scanned σ₁ Bytes}
    {x₂ : Scanned σ₂ Bytes}
    (hBytes : Scanned.Agree Gap T x₁ x₂)
    {st₁ : ScanState σ₁ ε}
    {st₂ : ScanState σ₂ ε}
    (hOver : Over T' st₁ st₂) :
    Agree Gap (Over T) (base85Of x₁ st₁) (base85Of x₂ st₂) := by
  cases hOver with
  | intro _ names env text =>
      cases hBytes with
      | gap hGap => exact .gap hGap _ _
      | same result text hSame =>
          cases result <;>
            exact .same _ (.intro hSame _ _ _)

end Lexeme

end Made

variable [ByteSource σ₁]
variable [ByteSource σ₂]
variable {S Past : σ₁ → σ₂ → Prop}
variable {Gap : Cause → Prop}

namespace Lexeme

------------------------------------------------------------
-- Comments and Regular Bytes
------------------------------------------------------------

/-
  A comment is read alike, or it ends with the first text and,
  at the line feed there, in the second.
-/
theorem comment_agree
    (hTracks : Tracks S Past Gap)
    (limit : Nat)
    (text : Bytes)
    {s₁ : σ₁}
    {s₂ : σ₂}
    (hSame : S s₁ s₂) :
    Scanned.Agree Gap S (comment limit text s₁)
        (comment limit text s₂) ∨
      ∃ gathered t₁ t₂,
        comment limit text s₁ = ⟨.ok (), gathered, t₁⟩ ∧
          comment limit text s₂ = ⟨.ok (), gathered, t₂⟩ ∧
            Past t₁ t₂ := by
  induction s₁ using ByteSource.induction_remaining
    generalizing text s₂ with
  | step s₁ ih =>
      have hNext := hTracks.next hSame
      rw [comment_eq limit text s₁, comment_eq limit text s₂]
      generalize hFirst : next s₁ = x₁ at hNext ⊢
      generalize next s₂ = x₂ at hNext ⊢
      cases hNext with
      | byte b hSame hBack =>
          dsimp only
          split
          · exact .inl (.same _ _ hSame)
          · exact ih _ (remaining_byte hFirst) _ hSame
      | atEnd _ hSame => exact .inl (.same _ _ hSame)
      | further _ hPast =>
          exact .inr ⟨text, _, _, rfl, rfl, hPast⟩
      | failed m hSame => exact .inl (.same _ _ hSame)
      | gap hGap => exact .inl (.gap hGap _ _ _)

/- Regular bytes also end with the text or a line feed. -/
theorem regular_agree
    (hTracks : Tracks S Past Gap)
    (limit : Nat)
    (text : Bytes)
    {s₁ : σ₁}
    {s₂ : σ₂}
    (hSame : S s₁ s₂) :
    Scanned.Agree Gap (Together S Past)
      (regular limit text s₁) (regular limit text s₂) := by
  induction s₁ using ByteSource.induction_remaining
    generalizing text s₂ with
  | step s₁ ih =>
      have hNext := hTracks.next hSame
      rw [regular_eq limit text s₁, regular_eq limit text s₂]
      generalize hFirst : next s₁ = x₁ at hNext ⊢
      generalize next s₂ = x₂ at hNext ⊢
      cases hNext with
      | byte b hSame hBack =>
          dsimp only
          split
          · split
            · exact ih _ (remaining_byte hFirst) _ hSame
            · exact .same _ _ (.inl hSame)
          · split
            · exact .same _ _ (.inl hSame)
            · exact .same _ _ (.inl hBack)
      | atEnd _ hSame => exact .same _ _ (.inl hSame)
      | further _ hPast => exact .same _ _ (.inr hPast)
      | failed m hSame => exact .same _ _ (.inl hSame)
      | gap hGap => exact .gap hGap _ _ _

/- A slash at the end of the text is not doubled. -/
theorem secondSlash_agree
    (hTracks : Tracks S Past Gap)
    {s₁ : σ₁}
    {s₂ : σ₂}
    (hSame : S s₁ s₂) :
    Agree Gap S (secondSlash s₁) (secondSlash s₂) := by
  have hNext := hTracks.next hSame
  unfold secondSlash
  generalize next s₁ = x₁ at hNext ⊢
  generalize next s₂ = x₂ at hNext ⊢
  cases hNext with
  | byte b hSame hBack =>
      dsimp only
      split
      · exact .same _ hSame
      · exact .same _ hBack
  | atEnd _ hSame => exact .same _ hSame
  | further _ _ hBack => exact .same _ hBack
  | failed m hSame => exact .same _ hSame
  | gap hGap => exact .gap hGap _ _

------------------------------------------------------------
-- Tokens
------------------------------------------------------------

variable {st₁ : ScanState σ₁ ε}
variable {st₂ : ScanState σ₂ ε}

/- A word is a number, or a name that is made. -/
theorem word_agree
    (hTracks : Tracks S Past Gap)
    (cfg : ScanSettings)
    (first : UInt8)
    (hOver : Over S st₁ st₂) :
    Agree Gap (Over (Together S Past)) (word cfg first st₁)
      (word cfg first st₂) := by
  cases hOver with
  | @intro s₁ s₂ hSame names env text =>
      have hRegular :=
        regular_agree hTracks cfg.stringLength #[first] hSame
      unfold word
      generalize regular _ _ s₁ = x₁ at hRegular ⊢
      generalize regular _ _ s₂ = x₂ at hRegular ⊢
      cases hRegular with
      | gap hGap => exact .gap hGap _ _
      | same result text hBehind =>
          cases result with
          | error cause =>
              exact .same _ (.intro hBehind _ _ _)
          | ok _ =>
              dsimp only
              rcases Number.ofLiteral text.toList with
                cause | _ | n
              · exact .same _ (.intro hBehind _ _ _)
              · exact nameOf_agree true text
                  (.intro hBehind _ _ _)
              · exact .same _ (.intro hBehind _ _ _)

/- A closing bracket alone is no token. -/
theorem closeAngle_agree
    (hTracks : Tracks S Past Gap)
    (cfg : ScanSettings)
    (hOver : Over S st₁ st₂) :
    Agree Gap (Over S) (closeAngle cfg st₁)
      (closeAngle cfg st₂) := by
  cases hOver with
  | @intro s₁ s₂ hSame names env text =>
      have hNext := hTracks.next hSame
      unfold closeAngle unexpected
      dsimp only
      generalize next s₁ = x₁ at hNext ⊢
      generalize next s₂ = x₂ at hNext ⊢
      cases hNext with
      | byte b hSame hBack =>
          dsimp only
          split
          · exact nameOf_agree true _ (.intro hSame _ _ _)
          · exact .same _ (.intro hSame _ _ _)
      | atEnd _ hSame => exact .same _ (.intro hSame _ _ _)
      | further hGap => exact .gap hGap _ _
      | failed m hSame => exact .same _ (.intro hSame _ _ _)
      | gap hGap => exact .gap hGap _ _

variable [Environment ε]

/- A name may stand behind one slash or two. -/
theorem slashed_agree
    (hTracks : Tracks S Past Gap)
    (cfg : ScanSettings)
    (hOver : Over S st₁ st₂) :
    Agree Gap (Over (Together S Past)) (slashed cfg st₁)
      (slashed cfg st₂) := by
  cases hOver with
  | @intro s₁ s₂ hSame names env text =>
      have hSecond := secondSlash_agree hTracks hSame
      unfold slashed
      dsimp only
      generalize secondSlash s₁ = x₁ at hSecond ⊢
      generalize secondSlash s₂ = x₂ at hSecond ⊢
      cases hSecond with
      | gap hGap => exact .gap hGap _ _
      | @same result t₁ t₂ hSame =>
          cases result with
          | error cause =>
              exact .same _ (.intro (.inl hSame) _ _ _)
          | ok immediate =>
              have hRegular :=
                regular_agree hTracks cfg.stringLength #[]
                  hSame
              dsimp only
              generalize regular _ _ t₁ = x₁ at hRegular ⊢
              generalize regular _ _ t₂ = x₂ at hRegular ⊢
              cases hRegular with
              | gap hGap => exact .gap hGap _ _
              | same result text hBehind =>
                  cases result with
                  | error cause =>
                      exact .same _ (.intro hBehind _ _ _)
                  | ok _ =>
                      dsimp only
                      split
                      · exact immediateOf_agree text
                          (.intro hBehind _ _ _)
                      · exact nameOf_agree false text
                          (.intro hBehind _ _ _)

/- A binary token is read as planned. -/
theorem binary_agree
    (hTracks : Tracks S Past Gap)
    (first : UInt8)
    (hOver : Over S st₁ st₂) :
    Agree Gap (Over S) (binary first st₁)
      (binary first st₂) := by
  cases hOver with
  | @intro s₁ s₂ hSame names env text =>
      rcases BinaryToken.planned_read first with ⟨p, hPlan⟩
      have hRead := hTracks.run p hSame
      rw [← hPlan, ← hPlan] at hRead
      unfold binary
      dsimp only at hRead ⊢
      generalize BinaryToken.read first s₁ = x₁ at hRead ⊢
      generalize BinaryToken.read first s₂ = x₂ at hRead ⊢
      cases hRead with
      | gap hGap => exact .gap hGap _ _
      | same result hSame =>
          cases result with
          | error cause => exact .same _ (.intro hSame _ _ _)
          | ok token =>
              dsimp only
              cases token.object env names <;>
                exact .same _ (.intro hSame _ _ _)

/- An opening one begins a name or a string. -/
theorem openAngle_agree
    (hTracks : Tracks S Past Gap)
    (cfg : ScanSettings)
    (hOver : Over S st₁ st₂) :
    Agree Gap (Over S) (openAngle cfg st₁)
      (openAngle cfg st₂) := by
  cases hOver with
  | @intro s₁ s₂ hSame names env text =>
      have hNext := hTracks.next hSame
      have hOver :
          Over S (⟨s₁, names, env, text⟩ : ScanState σ₁ ε)
            ⟨s₂, names, env, text⟩ :=
        .intro hSame _ _ _
      unfold openAngle unexpected
      dsimp only
      generalize next s₁ = x₁ at hNext ⊢
      generalize next s₂ = x₂ at hNext ⊢
      cases hNext with
      | byte b hSame hBack =>
          dsimp only
          split
          · exact nameOf_agree true _ (.intro hSame _ _ _)
          · split
            · exact base85Of_agree
                (Base85.read_agree hTracks _ hSame) hOver
            · exact stringOf_agree
                (Hexadecimal.body_agree hTracks _ none #[]
                  hBack) hOver
      | atEnd _ hSame => exact .same _ (.intro hSame _ _ _)
      | further hGap => exact .gap hGap _ _
      | failed m hSame => exact .same _ (.intro hSame _ _ _)
      | gap hGap => exact .gap hGap _ _

/- Any token is read alike. -/
theorem tokenFrom_agree
    (hTracks : Tracks S Past Gap)
    (cfg : ScanSettings)
    (first : UInt8)
    (hOver : Over S st₁ st₂) :
    Agree Gap (Over (Together S Past))
      (tokenFrom cfg first st₁) (tokenFrom cfg first st₂) := by
  have hBehind : Over (Together S Past) st₁ st₂ :=
    hOver.mono .inl
  have hWeaker :
      ∀ {x₁ : Except Cause Object × ScanState σ₁ ε}
        {x₂ : Except Cause Object × ScanState σ₂ ε},
        Agree Gap (Over S) x₁ x₂ →
          Agree Gap (Over (Together S Past)) x₁ x₂ :=
    fun h => h.mono (fun hOver => hOver.mono .inl)
  unfold tokenFrom
  split
  · refine stringOf_agree ?_ hOver
    exact Parenthesised.body_agree hTracks _ 1 #[]
      (.inl hOver.source)
  · split
    · exact hWeaker (openAngle_agree hTracks cfg hOver)
    · split
      · exact hWeaker (closeAngle_agree hTracks cfg hOver)
      · split
        · exact nameOf_agree true _ hBehind
        · split
          · cases hBehind with
            | intro hSame =>
                exact .same _ (.intro hSame _ _ _)
          · split
            · exact slashed_agree hTracks cfg hOver
            · split
              · exact hWeaker (binary_agree hTracks first hOver)
              · exact word_agree hTracks cfg first hOver

/- So is any piece that begins with a byte. -/
theorem readFrom_agree
    (hTracks : Tracks S Past Gap)
    (cfg : ScanSettings)
    (nested : Bool)
    (first : UInt8)
    (hOver : Over S st₁ st₂) :
    Agree Gap (Over (Together S Past))
      (readFrom cfg nested first st₁)
      (readFrom cfg nested first st₂) := by
  have hToken := tokenFrom_agree hTracks cfg first hOver
  unfold readFrom
  split
  · exact .same _ (hOver.mono .inl)
  · split
    · exact .same _ (hOver.mono .inl)
    · generalize tokenFrom cfg first st₁ = x₁ at hToken ⊢
      generalize tokenFrom cfg first st₂ = x₂ at hToken ⊢
      cases hToken with
      | gap hGap => exact .gap hGap _ _
      | same result hBehind =>
          cases result <;> exact .same _ hBehind

------------------------------------------------------------
-- Blanks
------------------------------------------------------------

/-
  Blanks are skipped alike. Where the first text ends in
  blanks, those of the second may go on.
-/
theorem skipBlanks_passes
    (hTracks : Tracks S Past Gap)
    (cfg : ScanSettings)
    (hOver : Over (Together S Past) st₁ st₂) :
    Passes Gap (Over S) (Over Past)
      (cfg.controlDEnds = true ∨ ¬ Gap .malformed) none
      (skipBlanks cfg) (skipBlanks cfg st₁)
      (skipBlanks cfg st₂) := by
  rcases hOver with @⟨s₁, s₂, hTogether, names, env, text⟩
  induction s₁ using ByteSource.induction_remaining
    generalizing s₂ env text with
  | step s₁ ih =>
      rcases hTogether with hSame | hPast
      case inr =>
        rcases hTracks.past hPast with ⟨-, t₁, hEnd, hPast'⟩
        rw [skipBlanks_eq cfg s₁, hEnd]
        exact .past (.intro hPast' _ _ _)
      case inl =>
        have hNext := hTracks.next hSame
        rw [skipBlanks_eq cfg s₁, skipBlanks_eq cfg s₂]
        generalize hFirst : next s₁ = x₁ at hNext ⊢
        generalize next s₂ = x₂ at hNext ⊢
        cases hNext with
        | atEnd hNever hSame =>
            exact .same _ (.intro hSame _ _ _)
              (fun _ => .inr hNever)
        | failed m hSame =>
            exact .failed _ (.intro hSame _ _ _)
        | gap hGap => exact .gap hGap _ _
        | further _ hPast =>
            have hMark : ¬ isEndMark cfg 0x0a = true := by
              rw [isEndMark_of_ne cfg (by decide)]
              exact Bool.false_ne_true
            dsimp only
            rw [if_neg (by decide), if_neg hMark,
              if_pos (by decide)]
            exact .past (.intro hPast _ _ _)
        | @byte t₁ t₂ b hSame hBack =>
            have hLess := remaining_byte hFirst
            dsimp only
            split
            · have hComment :=
                comment_agree hTracks cfg.stringLength #[]
                  hSame
              have hLeft :=
                remaining_comment cfg.stringLength #[] t₁
              rcases hComment with
                hComment | ⟨gathered, u₁, u₂, h₁, h₂, hPast⟩
              case inr =>
                rw [h₁] at hLeft
                rw [h₁, h₂]
                exact ih u₁ (Nat.lt_of_le_of_lt hLeft hLess)
                  (.inr hPast) _ _
              case inl =>
                generalize comment _ _ t₁ = x₁
                  at hComment hLeft ⊢
                generalize comment _ _ t₂ = x₂ at hComment ⊢
                cases hComment with
                | gap hGap => exact .gap hGap _ _
                | @same result gathered u₁ u₂ hSame =>
                    cases result with
                    | error cause =>
                        exact .failed _ (.intro hSame _ _ _)
                    | ok _ =>
                        exact ih u₁
                          (Nat.lt_of_le_of_lt hLeft hLess)
                          (.inl hSame) _ _
            · split
              next hMark =>
                rw [isEndMark, Bool.and_eq_true] at hMark
                exact .same _ (.intro hSame _ _ _)
                  (fun _ => .inl hMark.1)
              next =>
                split
                · exact ih t₁ hLess (.inl hSame) _ _
                · refine .same _ (.intro hSame _ _ _) ?_
                  intro hNone
                  cases hNone

------------------------------------------------------------
-- Pieces
------------------------------------------------------------

/-
  Pieces are read alike. Where the first text ends, the next
  piece of the second is read.
-/
theorem read_passes
    (hTracks : Tracks S Past Gap)
    (cfg : ScanSettings)
    (nested : Bool)
    (hOver : Over (Together S Past) st₁ st₂) :
    Passes Gap (Over (Together S Past)) (Over Past)
      (cfg.controlDEnds = true ∨ ¬ Gap .malformed) .ended
      (read cfg nested) (read cfg nested st₁)
      (read cfg nested st₂) := by
  have hSkip := skipBlanks_passes hTracks cfg hOver
  unfold read
  generalize skipBlanks cfg st₁ = x₁ at hSkip ⊢
  generalize skipBlanks cfg st₂ = x₂ at hSkip ⊢
  cases hSkip with
  | gap hGap => exact .gap hGap _ _
  | past hPast => exact .past hPast
  | same result hSame hLast =>
      rcases result with cause | _ | first
      · exact .failed _ (hSame.mono .inl)
      · exact .same _ (hSame.mono .inl) (fun _ => hLast rfl)
      · refine Agree.passes ?_
          (readFrom_ne_ended cfg nested first _)
        cases hSame with
        | intro hSame =>
            exact readFrom_agree hTracks cfg nested first
              (.intro hSame _ _ _)

end Lexeme

end PostScript
