import PostScript.Proofs.Source.Tracking
import PostScript.Proofs.StringBody.Base85
import PostScript.Proofs.StringBody.Hexadecimal
import PostScript.Proofs.StringBody.Parenthesised

/-
  This file shows that strings are read alike from sources
  that go on alike.

  Main results:
    * `Hexadecimal.body_agree`
    * `Base85.read_agree`
    * `Parenthesised.body_agree`
-/

namespace PostScript

open ByteSource

variable {σ₁ σ₂ : Type}
variable [ByteSource σ₁]
variable [ByteSource σ₂]
variable {S Past : σ₁ → σ₂ → Prop}
variable {Gap : Cause → Prop}

------------------------------------------------------------
-- Hexadecimal Digits
------------------------------------------------------------

namespace Hexadecimal

/- Digits are read one by one, by induction on what is left. -/
theorem body_agree
    (hTracks : Tracks S Past Gap)
    (limit : Nat)
    (high : Option Nat)
    (text : Bytes)
    {s₁ : σ₁}
    {s₂ : σ₂}
    (hSame : S s₁ s₂) :
    Scanned.Agree Gap S (body limit high text s₁)
      (body limit high text s₂) := by
  induction s₁ using ByteSource.induction_remaining
    generalizing high text s₂ with
  | step s₁ ih =>
      have hDemand := hTracks.demand hSame
      rw [body_eq limit high text s₁,
        body_eq limit high text s₂]
      generalize hFirst : demand s₁ = x₁ at hDemand ⊢
      generalize demand s₂ = x₂ at hDemand ⊢
      cases hDemand with
      | gap hGap => exact .gap hGap _ _ _
      | @same result t₁ t₂ hSame =>
          cases result with
          | error cause => exact .same _ _ hSame
          | ok b =>
              have hLess := remaining_of_demand_ok hFirst
              have hOn :=
                fun high text => ih t₁ hLess high text hSame
              dsimp only
              split
              · cases high with
                | none => exact .same _ _ hSame
                | some h =>
                    dsimp only
                    split <;> exact .same _ _ hSame
              · split
                · exact hOn high text
                · cases digitOf 16 b with
                  | none => exact .same _ _ hSame
                  | some d =>
                      cases high with
                      | none => exact hOn _ _
                      | some h =>
                          dsimp only
                          split
                          · exact hOn _ _
                          · exact .same _ _ hSame

end Hexadecimal

------------------------------------------------------------
-- Base 85
------------------------------------------------------------

namespace Base85

/- The text is gathered byte by byte. -/
theorem gather_agree
    (hTracks : Tracks S Past Gap)
    (limit : Nat)
    (text : Bytes)
    {s₁ : σ₁}
    {s₂ : σ₂}
    (hSame : S s₁ s₂) :
    Scanned.Agree Gap S (gather limit text s₁)
      (gather limit text s₂) := by
  induction s₁ using ByteSource.induction_remaining
    generalizing text s₂ with
  | step s₁ ih =>
      have hDemand := hTracks.demand hSame
      rw [gather_eq limit text s₁, gather_eq limit text s₂]
      generalize hFirst : demand s₁ = x₁ at hDemand ⊢
      generalize demand s₂ = x₂ at hDemand ⊢
      cases hDemand with
      | gap hGap => exact .gap hGap _ _ _
      | @same result t₁ t₂ hSame =>
          cases result with
          | error cause => exact .same _ _ hSame
          | ok b =>
              have hLess := remaining_of_demand_ok hFirst
              have hOn :=
                fun text => ih t₁ hLess text hSame
              dsimp only
              split
              · have hDemand' := hTracks.demand hSame
                generalize demand t₁ = x₁ at hDemand' ⊢
                generalize demand t₂ = x₂ at hDemand' ⊢
                cases hDemand' with
                | gap hGap => exact .gap hGap _ _ _
                | same result hSame =>
                    cases result with
                    | error cause => exact .same _ _ hSame
                    | ok e =>
                        dsimp only
                        split <;> exact .same _ _ hSame
              · split
                · exact hOn text
                · split
                  · exact hOn _
                  · exact .same _ _ hSame

/- The string is made of the text that was gathered. -/
theorem read_agree
    (hTracks : Tracks S Past Gap)
    (limit : Nat)
    {s₁ : σ₁}
    {s₂ : σ₂}
    (hSame : S s₁ s₂) :
    Scanned.Agree Gap S (read limit s₁) (read limit s₂) := by
  have hGather :=
    gather_agree hTracks (textLimit limit) #[] hSame
  unfold read
  generalize gather (textLimit limit) #[] s₁ = x₁
    at hGather ⊢
  generalize gather (textLimit limit) #[] s₂ = x₂
    at hGather ⊢
  cases hGather with
  | gap hGap => exact .gap hGap _ _ _
  | same result text hSame =>
      cases result with
      | error cause => exact .same _ _ hSame
      | ok _ =>
          dsimp only
          cases decode? text with
          | none => exact .same _ _ hSame
          | some bytes =>
              dsimp only
              split <;> exact .same _ _ hSame

end Base85

------------------------------------------------------------
-- Parentheses
------------------------------------------------------------

namespace Parenthesised

/- A line feed that is missing is not missed. -/
theorem skipLineFeed_agree
    (hTracks : Tracks S Past Gap)
    {s₁ : σ₁}
    {s₂ : σ₂}
    (hSame : S s₁ s₂) :
    Agree Gap (Together S Past) (skipLineFeed s₁)
      (skipLineFeed s₂) := by
  have hNext := hTracks.next hSame
  unfold skipLineFeed
  generalize next s₁ = x₁ at hNext ⊢
  generalize next s₂ = x₂ at hNext ⊢
  cases hNext with
  | byte b hSame hBack =>
      dsimp only
      split
      · exact .same _ (.inl hSame)
      · exact .same _ (.inl hBack)
  | atEnd _ hSame => exact .same _ (.inl hSame)
  | further _ hPast => exact .same _ (.inr hPast)
  | failed m hSame => exact .same _ (.inl hSame)
  | gap hGap => exact .gap hGap _ _

/- A line feed is no octal digit, so a code ends before it. -/
theorem octal_agree
    (hTracks : Tracks S Past Gap)
    (n v : Nat)
    {s₁ : σ₁}
    {s₂ : σ₂}
    (hSame : S s₁ s₂) :
    Agree Gap S (octal n v s₁) (octal n v s₂) := by
  induction n generalizing v s₁ s₂ with
  | zero => exact .same _ hSame
  | succ n ih =>
      have hNext := hTracks.next hSame
      unfold octal
      generalize next s₁ = x₁ at hNext ⊢
      generalize next s₂ = x₂ at hNext ⊢
      cases hNext with
      | byte b hSame hBack =>
          dsimp only
          split
          · exact ih _ hSame
          · exact .same _ hBack
      | atEnd _ hSame => exact .same _ hSame
      | further _ _ hBack => exact .same _ hBack
      | failed m hSame => exact .same _ hSame
      | gap hGap => exact .gap hGap _ _

/- An escape needs the byte behind its backslash. -/
theorem escape_agree
    (hTracks : Tracks S Past Gap)
    {s₁ : σ₁}
    {s₂ : σ₂}
    (hSame : S s₁ s₂) :
    Agree Gap (Together S Past) (escape s₁) (escape s₂) := by
  have hDemand := hTracks.demand hSame
  unfold escape
  generalize demand s₁ = x₁ at hDemand ⊢
  generalize demand s₂ = x₂ at hDemand ⊢
  cases hDemand with
  | gap hGap => exact .gap hGap _ _
  | @same result t₁ t₂ hSame =>
      cases result with
      | error cause => exact .same _ (.inl hSame)
      | ok b =>
          dsimp only
          split
          · have hOctal :=
              octal_agree hTracks 2 (b.toNat - '0'.toNat) hSame
            generalize octal 2 _ t₁ = x₁ at hOctal ⊢
            generalize octal 2 _ t₂ = x₂ at hOctal ⊢
            cases hOctal with
            | gap hGap => exact .gap hGap _ _
            | same result hSame =>
                cases result <;> exact .same _ (.inl hSame)
          · split
            · exact .same _ (.inl hSame)
            · split
              · have hSkip := skipLineFeed_agree hTracks hSame
                generalize skipLineFeed t₁ = x₁ at hSkip ⊢
                generalize skipLineFeed t₂ = x₂ at hSkip ⊢
                cases hSkip with
                | gap hGap => exact .gap hGap _ _
                | same result hSame =>
                    cases result <;> exact .same _ hSame
              · exact .same _ (.inl hSame)

/- An item other than an escape is a single byte. -/
theorem item_agree
    (hTracks : Tracks S Past Gap)
    (depth : UInt32)
    (b : UInt8)
    {s₁ : σ₁}
    {s₂ : σ₂}
    (hSame : S s₁ s₂) :
    Agree Gap (Together S Past) (item depth b s₁)
      (item depth b s₂) := by
  have hEscape := escape_agree hTracks hSame
  unfold item
  split
  · generalize escape s₁ = x₁ at hEscape ⊢
    generalize escape s₂ = x₂ at hEscape ⊢
    cases hEscape with
    | gap hGap => exact .gap hGap _ _
    | same result hSame =>
        rcases result with cause | _ | v <;>
          exact .same _ hSame
  · split
    · exact .same _ (.inl hSame)
    · split
      · split <;> exact .same _ (.inl hSame)
      · split <;> exact .same _ (.inl hSame)

/- A carriage return is an item by itself. -/
theorem item_lineBreak
    {σ : Type}
    [ByteSource σ]
    {depth : UInt32}
    {b : UInt8}
    {s s' : σ}
    (h : item depth b s = (.ok .lineBreak, s')) :
    s' = s := by
  unfold item at h
  split at h
  · split at h <;> cases h
  · split at h
    · cases h
    · split at h
      · split at h <;> cases h
      · split at h
        · cases h
          rfl
        · cases h

/-
  An item and what is behind it, if the string goes on alike
  from any two sources that are reached by then.
-/
theorem itemBehind_agree
    (hTracks : Tracks S Past Gap)
    {limit : Nat}
    {depth : UInt32}
    {text : Bytes}
    (b : UInt8)
    {t₁ : σ₁}
    {t₂ : σ₂}
    (hSame : S t₁ t₂)
    (hOn :
      ∀ depth text {u₁ u₂},
        remaining u₁ ≤ remaining t₁ →
          Together S Past u₁ u₂ →
            Scanned.Agree Gap (Together S Past)
              (body limit depth text u₁)
              (body limit depth text u₂)) :
    Scanned.Agree Gap (Together S Past)
      (match item depth b t₁ with
      | (.error cause, s) => ⟨.error cause, text, s⟩
      | (.ok x, s) => bodyBehind limit depth text s x)
      (match item depth b t₂ with
      | (.error cause, s) => ⟨.error cause, text, s⟩
      | (.ok x, s) => bodyBehind limit depth text s x) := by
  have hItem := item_agree hTracks depth b hSame
  have hLeft := remaining_item depth b t₁
  generalize hItem₁ : item depth b t₁ = x₁ at hItem hLeft ⊢
  generalize hItem₂ : item depth b t₂ = x₂ at hItem ⊢
  cases hItem with
  | gap hGap => exact .gap hGap _ _ _
  | @same result u₁ u₂ hBehind =>
      cases result with
      | error cause => exact .same _ _ hBehind
      | ok x =>
          dsimp only
          cases x with
          | ending => exact .same _ _ hBehind
          | nothing => exact hOn _ _ hLeft hBehind
          | spelled v depth' =>
              rw [bodyBehind, bodyBehind]
              split
              · exact hOn _ _ hLeft hBehind
              · exact .same _ _ hBehind
          | lineBreak =>
              -- Nothing has been read but the carriage return.
              cases item_lineBreak hItem₁
              cases item_lineBreak hItem₂
              have hSkip := skipLineFeed_agree hTracks hSame
              have hLeft' := remaining_skipLineFeed t₁
              rw [bodyBehind, bodyBehind]
              generalize skipLineFeed t₁ = x₁
                at hSkip hLeft' ⊢
              generalize skipLineFeed t₂ = x₂ at hSkip ⊢
              split
              · cases hSkip with
                | gap hGap => exact .gap hGap _ _ _
                | same result hBehind =>
                    cases result with
                    | error cause => exact .same _ _ hBehind
                    | ok _ => exact hOn _ _ hLeft' hBehind
              · exact .same _ _ hBehind

/-
  A string goes on behind each of its items. If the first
  source has ended, the closing parenthesis is missing there.
-/
theorem body_agree
    (hTracks : Tracks S Past Gap)
    (limit : Nat)
    (depth : UInt32)
    (text : Bytes)
    {s₁ : σ₁}
    {s₂ : σ₂}
    (hTogether : Together S Past s₁ s₂) :
    Scanned.Agree Gap (Together S Past)
      (body limit depth text s₁) (body limit depth text s₂) :=
    by
  induction s₁ using ByteSource.induction_remaining
    generalizing depth text s₂ with
  | step s₁ ih =>
      rcases hTogether with hSame | hPast
      case inr =>
        rcases hTracks.demand_past hPast with
          ⟨hGap, t₁, hEnd⟩
        rw [body_eq limit depth text s₁, hEnd]
        exact .gap hGap _ _ _
      case inl =>
        have hDemand := hTracks.demand hSame
        rw [body_eq limit depth text s₁,
          body_eq limit depth text s₂]
        generalize hFirst : demand s₁ = x₁ at hDemand ⊢
        generalize demand s₂ = x₂ at hDemand ⊢
        cases hDemand with
        | gap hGap => exact .gap hGap _ _ _
        | @same result t₁ t₂ hSame =>
            cases result with
            | error cause => exact .same _ _ (.inl hSame)
            | ok b =>
                have hLess := remaining_of_demand_ok hFirst
                dsimp only
                refine itemBehind_agree hTracks b hSame ?_
                intro depth text u₁ u₂ hLeft hBehind
                exact ih u₁ (Nat.lt_of_le_of_lt hLeft hLess)
                  depth text hBehind

end Parenthesised

end PostScript
