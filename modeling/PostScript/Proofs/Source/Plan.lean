import PostScript.Proofs.Source.Supply

/-
  This file describes readers that ask for bytes one at a
  time until they are done, and never push one back. Such a
  reader takes the same bytes whatever stands behind them, and
  asks for more wherever the text stops short of them.

  Key definitions include:
    * `Plan`
    * `Plan.run`
    * `Plan.feed`
    * `Plan.Takes`
    * `Planned`

  Main results:
    * `Plan.run_of_feed`
    * `Plan.takes_of_feed`
-/

namespace PostScript

open ByteSource

------------------------------------------------------------
-- Plans
------------------------------------------------------------

/-
  What a reader does next: it has its value, it stops for a
  reason of its own, or it asks for one more byte.
-/
inductive Plan (α : Type) where
  | done (v : α)
  | stop (cause : Cause)
  | ask (next : UInt8 → Plan α)

namespace Plan

variable {σ α β : Type}

/- Do as planned on a source. -/
def run
    [ByteSource σ] : Plan α → σ → Except Cause α × σ
  | done v, src => (.ok v, src)
  | stop cause, src => (.error cause, src)
  | ask next, src =>
      match demand src with
      | (.ok b, s) => (next b).run s
      | (.error cause, s) => (.error cause, s)

/- What comes of a text, and what is left of it. -/
def feed : Plan α → List UInt8 → Except Cause (α × List UInt8)
  | done v, text => .ok (v, text)
  | stop cause, _ => .error cause
  | ask _, [] => .error .malformed
  | ask next, b :: text => (next b).feed text

/- Go on with a value. -/
def andThen
    (p : Plan α)
    (f : α → Plan β) : Plan β :=
  match p with
  | done v => f v
  | stop cause => stop cause
  | ask next => ask (fun b => (next b).andThen f)

/- What is planned in two parts is done one by one. -/
theorem run_andThen
    [ByteSource σ]
    (p : Plan α)
    (f : α → Plan β)
    (src : σ) :
    (p.andThen f).run src =
      match p.run src with
      | (.ok v, s) => (f v).run s
      | (.error cause, s) => (.error cause, s) := by
  induction p generalizing src with
  | done v => rfl
  | stop cause => rfl
  | ask next ih =>
      rw [andThen, run, run]
      rcases demand src with ⟨cause | b, s⟩
      · rfl
      · exact ih b s

------------------------------------------------------------
-- Sources
------------------------------------------------------------

/- Where the text ends, nothing can be demanded. -/
theorem demand_atEnd
    [ByteSource σ]
    {R : σ → List UInt8 → Prop}
    (hR : Faithful R)
    {src : σ}
    (hSource : R src []) :
    ∃ s, demand src = (.error .malformed, s) := by
  rcases hR.atEnd hSource with ⟨s, hNext, -⟩
  refine ⟨s, ?_⟩
  unfold demand
  rw [hNext]

/- A plan makes of a source what it makes of its text. -/
theorem run_of_feed
    [ByteSource σ]
    {R : σ → List UInt8 → Prop}
    (hR : Faithful R)
    (p : Plan α)
    {src : σ}
    {text : List UInt8}
    (hSource : R src text) :
    match p.feed text with
    | .ok (v, left) =>
        ∃ s, p.run src = (.ok v, s) ∧ R s left
    | .error cause => ∃ s, p.run src = (.error cause, s) := by
  induction p generalizing src text with
  | done v => exact ⟨src, rfl, hSource⟩
  | stop cause => exact ⟨src, rfl⟩
  | ask next ih =>
      cases text with
      | nil =>
          rcases demand_atEnd hR hSource with ⟨s, hDemand⟩
          refine ⟨s, ?_⟩
          unfold run
          rw [hDemand]
      | cons b rest =>
          rcases hR.byte hSource with ⟨s, hNext, hRest, -⟩
          have hRun : (ask next).run src = (next b).run s := by
            rw [run, demand, hNext]
          rw [hRun, feed]
          exact ih b hRest

------------------------------------------------------------
-- Extent
------------------------------------------------------------

/-
  A plan takes exactly these bytes to come to a value. What
  stands behind them is left, and all that stops short of them
  is too short.
-/
structure Takes
    (p : Plan α)
    (taken : List UInt8)
    (v : α) : Prop where
  enough :
    ∀ rest, p.feed (taken ++ rest) = .ok (v, rest)
  short :
    ∀ k < taken.length,
      p.feed (taken.take k) = .error .malformed

/- A plan that comes to a value takes what is not left. -/
theorem takes_of_feed
    (p : Plan α)
    {text left : List UInt8}
    {v : α}
    (hFeed : p.feed text = .ok (v, left)) :
    ∃ taken, text = taken ++ left ∧ p.Takes taken v := by
  induction p generalizing text with
  | done v' =>
      cases hFeed
      exact ⟨[], rfl, fun _ => rfl, fun k hk => nomatch hk⟩
  | stop cause => contradiction
  | ask next ih =>
      cases text with
      | nil => contradiction
      | cons b rest =>
          rcases ih b hFeed with ⟨taken, rfl, hTakes⟩
          refine ⟨b :: taken, rfl, hTakes.enough, ?_⟩
          intro k hk
          cases k with
          | zero => rfl
          | succ k =>
              exact hTakes.short k
                (Nat.lt_of_succ_lt_succ hk)

end Plan

------------------------------------------------------------
-- Readers
------------------------------------------------------------

/- A reader that does as planned, on sources of all kinds. -/
def Planned
    {α : Type}
    (f :
      (σ : Type) → [ByteSource σ] → σ →
        Except Cause α × σ) : Prop :=
  ∃ p : Plan α,
    ∀ (σ : Type) [ByteSource σ] (src : σ), f σ src = p.run src

/- A single byte is planned for. -/
theorem planned_demand :
    Planned (fun _ _ src => demand src) := by
  refine ⟨.ask .done, ?_⟩
  intro σ _ src
  dsimp only
  rw [Plan.run]
  rcases demand src with ⟨cause | b, s⟩ <;> rfl

/- So are counted bytes, by induction on their number. -/
theorem planned_takeAfter
    (taken : Bytes)
    (n : Nat) :
    Planned (fun _ _ src => takeAfter taken n src) := by
  induction n generalizing taken with
  | zero => exact ⟨.done taken, fun _ _ _ => rfl⟩
  | succ n ih =>
      refine ⟨.ask (fun b => (ih (taken.push b)).choose), ?_⟩
      intro σ _ src
      dsimp only
      rw [Plan.run, takeAfter]
      rcases demand src with ⟨cause | b, s⟩
      · rfl
      · exact (ih (taken.push b)).choose_spec σ s

/- The same for bytes taken from the start. -/
theorem planned_takeBytes
    (n : Nat) :
    Planned (fun _ _ src => takeBytes n src) :=
  planned_takeAfter #[] n

end PostScript
