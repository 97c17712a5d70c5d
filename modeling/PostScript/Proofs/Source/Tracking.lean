import PostScript.Proofs.Source.Plan

/-
  This file compares what is read from two sources, the second
  of which gives what the first gives as long as that lasts.
  Where the first ends, the second may go on with a line feed
  and more. A reader then comes to the same on both, unless it
  needs more than the first one has.

  Key definitions include:
    * `Answers`
    * `Tracks`
    * `Tracks.Together`
    * `Agree`
    * `Scanned.Agree`

  Main results:
    * `Tracks.demand`
    * `Tracks.run`
    * `tracks_append`
    * `tracks_same`
-/

namespace PostScript

open ByteSource

variable {σ₁ σ₂ : Type}

------------------------------------------------------------
-- Sources
------------------------------------------------------------

section Sources

variable [ByteSource σ₁]
variable [ByteSource σ₂]

/-
  How two sources answer when they are asked for a byte.
  `S` relates them as long as they go on alike, and `Past` once
  the second has gone past the end of the first. `Gap` are the
  causes for which reading the first may fail by itself.
-/
inductive Answers
    (S Past : σ₁ → σ₂ → Prop)
    (Gap : Cause → Prop) :
    Fetch × σ₁ → Fetch × σ₂ → Prop where
  | byte
      {s₁ : σ₁}
      {s₂ : σ₂}
      (b : UInt8)
      (hSame : S s₁ s₂)
      (hBack : S (pushBack b s₁) (pushBack b s₂)) :
      Answers S Past Gap (.byte b, s₁) (.byte b, s₂)
  | atEnd
      {s₁ : σ₁}
      {s₂ : σ₂}
      (hNever : ¬ Gap .malformed)
      (hSame : S s₁ s₂) :
      Answers S Past Gap (.atEnd, s₁) (.atEnd, s₂)
  | further
      {s₁ : σ₁}
      {s₂ : σ₂}
      (hGap : Gap .malformed)
      (hPast : Past s₁ s₂)
      (hBack : S s₁ (pushBack 0x0a s₂)) :
      Answers S Past Gap (.atEnd, s₁) (.byte 0x0a, s₂)
  | failed
      {s₁ : σ₁}
      {s₂ : σ₂}
      (m : String)
      (hSame : S s₁ s₂) :
      Answers S Past Gap (.failed m, s₁) (.failed m, s₂)
  | gap
      {m : String}
      (hGap : Gap (.source m))
      (s₁ : σ₁)
      (x₂ : Fetch × σ₂) :
      Answers S Past Gap (.failed m, s₁) x₂

/- The second source goes along with the first. -/
structure Tracks
    (S Past : σ₁ → σ₂ → Prop)
    (Gap : Cause → Prop) : Prop where
  next :
    ∀ {s₁ s₂}, S s₁ s₂ →
      Answers S Past Gap (next s₁) (next s₂)
  past :
    ∀ {s₁ s₂}, Past s₁ s₂ →
      Gap .malformed ∧
        ∃ t₁, ByteSource.next s₁ = (.atEnd, t₁) ∧ Past t₁ s₂

/- The sources go on alike, or the first has ended. -/
def Together
    (S Past : σ₁ → σ₂ → Prop)
    (s₁ : σ₁)
    (s₂ : σ₂) : Prop :=
  S s₁ s₂ ∨ Past s₁ s₂

end Sources

------------------------------------------------------------
-- Results
------------------------------------------------------------

section Results

variable {α : Type}

/-
  Two readings with the same result, or one that fails for a
  cause of its own beside any other.
-/
inductive Agree
    (Gap : Cause → Prop)
    (T : σ₁ → σ₂ → Prop) :
    Except Cause α × σ₁ → Except Cause α × σ₂ → Prop where
  | same
      (result : Except Cause α)
      {s₁ : σ₁}
      {s₂ : σ₂}
      (hSame : T s₁ s₂) :
      Agree Gap T (result, s₁) (result, s₂)
  | gap
      {cause : Cause}
      (hGap : Gap cause)
      (s₁ : σ₁)
      (x₂ : Except Cause α × σ₂) :
      Agree Gap T (.error cause, s₁) x₂

/- The same for readings that have gathered bytes. -/
inductive Scanned.Agree
    (Gap : Cause → Prop)
    (T : σ₁ → σ₂ → Prop) :
    Scanned σ₁ α → Scanned σ₂ α → Prop where
  | same
      (result : Except Cause α)
      (text : Bytes)
      {s₁ : σ₁}
      {s₂ : σ₂}
      (hSame : T s₁ s₂) :
      Scanned.Agree Gap T ⟨result, text, s₁⟩
        ⟨result, text, s₂⟩
  | gap
      {cause : Cause}
      (hGap : Gap cause)
      (text : Bytes)
      (s₁ : σ₁)
      (x₂ : Scanned σ₂ α) :
      Scanned.Agree Gap T ⟨.error cause, text, s₁⟩ x₂

variable {Gap : Cause → Prop}
variable {T T' : σ₁ → σ₂ → Prop}

/- Less may be said about the sources. -/
theorem Agree.mono
    {x₁ : Except Cause α × σ₁}
    {x₂ : Except Cause α × σ₂}
    (h : Agree Gap T x₁ x₂)
    (hT : ∀ {s₁ s₂}, T s₁ s₂ → T' s₁ s₂) :
    Agree Gap T' x₁ x₂ := by
  cases h with
  | same result hSame => exact .same result (hT hSame)
  | gap hGap => exact .gap hGap _ _

end Results

------------------------------------------------------------
-- Readers
------------------------------------------------------------

section Readers

variable [ByteSource σ₁]
variable [ByteSource σ₂]
variable {S Past : σ₁ → σ₂ → Prop}
variable {Gap : Cause → Prop}
variable {s₁ : σ₁}
variable {s₂ : σ₂}

/- Induction on the bytes that are left in a source. -/
theorem ByteSource.induction_remaining
    {P : σ₁ → Prop}
    (step :
      ∀ s, (∀ t, remaining t < remaining s → P t) → P s)
    (s : σ₁) :
    P s :=
  (measure remaining).wf.induction s step

namespace Tracks

/- A byte is demanded from both. -/
theorem demand
    (hTracks : Tracks S Past Gap)
    (hSame : S s₁ s₂) :
    Agree Gap S (demand s₁) (PostScript.demand s₂) := by
  have hNext := hTracks.next hSame
  unfold PostScript.demand
  generalize ByteSource.next s₁ = x₁ at hNext ⊢
  generalize ByteSource.next s₂ = x₂ at hNext ⊢
  cases hNext with
  | byte b hSame => exact .same _ hSame
  | atEnd hNever hSame => exact .same _ hSame
  | further hGap => exact .gap hGap _ _
  | failed m hSame => exact .same _ hSame
  | gap hGap => exact .gap hGap _ _

/- Past the end of the first source nothing is demanded. -/
theorem demand_past
    (hTracks : Tracks S Past Gap)
    (hPast : Past s₁ s₂) :
    Gap .malformed ∧
      ∃ t₁, PostScript.demand s₁ = (.error .malformed, t₁) := by
  rcases hTracks.past hPast with ⟨hGap, t₁, hNext, -⟩
  refine ⟨hGap, t₁, ?_⟩
  unfold PostScript.demand
  rw [hNext]

/- So both come to the same as planned. -/
theorem run
    {α : Type}
    (hTracks : Tracks S Past Gap)
    (p : Plan α)
    (hSame : S s₁ s₂) :
    Agree Gap S (p.run s₁) (p.run s₂) := by
  induction p generalizing s₁ s₂ with
  | done v => exact .same _ hSame
  | stop cause => exact .same _ hSame
  | ask next ih =>
      have hDemand := hTracks.demand hSame
      rw [Plan.run, Plan.run]
      generalize PostScript.demand s₁ = x₁ at hDemand ⊢
      generalize PostScript.demand s₂ = x₂ at hDemand ⊢
      cases hDemand with
      | gap hGap => exact .gap hGap _ _
      | same result hSame =>
          cases result with
          | error cause => exact .same _ hSame
          | ok b => exact ih b hSame

end Tracks

end Readers

------------------------------------------------------------
-- Texts
------------------------------------------------------------

section Texts

variable [ByteSource σ₁]
variable [ByteSource σ₂]

/- A text is a beginning of any text that goes on with it. -/
theorem tracks_append
    (more : List UInt8) :
    Tracks
      (fun (s₁ : σ₁) (s₂ : σ₂) =>
        ∃ text, Supplies s₁ text ∧
          Supplies s₂ (text ++ 0x0a :: more))
      (fun s₁ s₂ => Supplies s₁ [] ∧ Supplies s₂ more)
      (fun _ => True) where
  next := by
    rintro s₁ s₂ ⟨text, h₁, h₂⟩
    cases text with
    | nil =>
        rcases h₁.atEnd with ⟨t₁, hNext₁, hEnd⟩
        rcases h₂.byte with ⟨t₂, hNext₂, hMore, hBack⟩
        rw [hNext₁, hNext₂]
        exact .further trivial ⟨hEnd, hMore⟩ ⟨[], hEnd, hBack⟩
    | cons b text =>
        rcases h₁.byte with ⟨t₁, hNext₁, hRest₁, hBack₁⟩
        rcases h₂.byte with ⟨t₂, hNext₂, hRest₂, hBack₂⟩
        rw [hNext₁, hNext₂]
        exact .byte b ⟨text, hRest₁, hRest₂⟩
          ⟨b :: text, hBack₁, hBack₂⟩
  past := by
    rintro s₁ s₂ ⟨hEnd, hMore⟩
    rcases hEnd.atEnd with ⟨t₁, hNext, hEnd'⟩
    exact ⟨trivial, t₁, hNext, hEnd', hMore⟩

/- The same text may be supplied by two sources. -/
theorem tracks_same :
    Tracks
      (fun (s₁ : σ₁) (s₂ : σ₂) =>
        ∃ text, Supplies s₁ text ∧ Supplies s₂ text)
      (fun _ _ => False)
      (fun _ => False) where
  next := by
    rintro s₁ s₂ ⟨text, h₁, h₂⟩
    cases text with
    | nil =>
        rcases h₁.atEnd with ⟨t₁, hNext₁, hEnd₁⟩
        rcases h₂.atEnd with ⟨t₂, hNext₂, hEnd₂⟩
        rw [hNext₁, hNext₂]
        exact .atEnd id ⟨[], hEnd₁, hEnd₂⟩
    | cons b text =>
        rcases h₁.byte with ⟨t₁, hNext₁, hRest₁, hBack₁⟩
        rcases h₂.byte with ⟨t₂, hNext₂, hRest₂, hBack₂⟩
        rw [hNext₁, hNext₂]
        exact .byte b ⟨text, hRest₁, hRest₂⟩
          ⟨b :: text, hBack₁, hBack₂⟩
  past := nofun

end Texts

end PostScript
