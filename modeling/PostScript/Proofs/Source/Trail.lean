import PostScript.Proofs.Source.Tracking

/-
  This file shows that what is read from a source is decided
  by what the source answers. A reader asks for one byte after
  another, and gives a byte back at once or not at all. So it
  leaves a trail of answers, and on every source that answers
  alike it comes to the same.

  Key definitions include:
    * `Exchange`
    * `Trail`
    * `Reading.Yields`
    * `LocalAt`

  Main results:
    * `Trail.split`
    * `Trail.keeps`
    * `LocalAt.after`
    * `Planned.localAt`
-/

namespace PostScript

open ByteSource

------------------------------------------------------------
-- Trails
------------------------------------------------------------

/- An answer that is kept, or a byte that is given back. -/
inductive Exchange where
  | kept (answer : Fetch)
  | returned (b : UInt8)
deriving DecidableEq, Repr

section Trails

variable {σ : Type}
variable [ByteSource σ]

/- How a source goes from one state to another. -/
inductive Trail : σ → List Exchange → σ → Prop where
  | nil
      (s : σ) :
      Trail s [] s
  | kept
      {s s' u : σ}
      {answer : Fetch}
      {es : List Exchange}
      (hNext : next s = (answer, s'))
      (hRest : Trail s' es u) :
      Trail s (.kept answer :: es) u
  | returned
      {s s' u : σ}
      {b : UInt8}
      {es : List Exchange}
      (hNext : next s = (.byte b, s'))
      (hRest : Trail (pushBack b s') es u) :
      Trail s (.returned b :: es) u

namespace Trail

variable {s m u : σ}
variable {es more : List Exchange}

/- One trail may be followed by another. -/
theorem append
    (h : Trail s es m)
    (hMore : Trail m more u) :
    Trail s (es ++ more) u := by
  induction h with
  | nil s => exact hMore
  | kept hNext _ ih => exact .kept hNext (ih hMore)
  | returned hNext _ ih => exact .returned hNext (ih hMore)

/- A trail may be cut anywhere. -/
theorem split
    (h : Trail s (es ++ more) u) :
    ∃ m, Trail s es m ∧ Trail m more u := by
  induction es generalizing s with
  | nil => exact ⟨s, .nil s, h⟩
  | cons e es ih =>
      cases h with
      | kept hNext hRest =>
          rcases ih hRest with ⟨m, hFirst, hSecond⟩
          exact ⟨m, .kept hNext hFirst, hSecond⟩
      | returned hNext hRest =>
          rcases ih hRest with ⟨m, hFirst, hSecond⟩
          exact ⟨m, .returned hNext hFirst, hSecond⟩

/- What holds on through every exchange holds at the end. -/
theorem keeps
    {P : σ → Prop}
    (hNext : ∀ {s}, P s → P (next s).2)
    (hBack :
      ∀ {s s' b}, P s → next s = (.byte b, s') →
        P (pushBack b s'))
    (h : Trail s es u)
    (hStart : P s) :
    P u := by
  induction h with
  | nil s => exact hStart
  | kept hAnswer _ ih =>
      have hKept := hNext hStart
      rw [hAnswer] at hKept
      exact ih hKept
  | returned hAnswer _ ih => exact ih (hBack hStart hAnswer)

end Trail

end Trails

------------------------------------------------------------
-- Readings
------------------------------------------------------------

/- What is done with a source, whatever its kind. -/
abbrev Reading (R : Type → Type) : Type 1 :=
  (σ : Type) → [ByteSource σ] → σ → R σ

/- How a value is put beside the source that is left. -/
abbrev Pairing (V : Type) (R : Type → Type) : Type 1 :=
  (σ : Type) → V → σ → R σ

section Local

variable {V W : Type}
variable {P R : Type → Type}

/- Wherever there is such a trail, the value is this one. -/
def Reading.Yields
    (f : Reading R)
    (mk : Pairing V R)
    (es : List Exchange)
    (v : V) : Prop :=
  ∀ {τ : Type} [ByteSource τ] {t w : τ},
    Trail t es w → f τ t = mk τ v w

variable {σ : Type}
variable [ByteSource σ]

/-
  What is done at a source is decided by the trail that it
  leaves there.
-/
def LocalAt
    (mk : Pairing V R)
    (f : Reading R)
    (s : σ) : Prop :=
  ∃ es v u, Trail s es u ∧ f.Yields mk es v

variable {mk : Pairing V R}
variable {mkP : Pairing W P}
variable {f k : Reading R}
variable {g : Reading P}
variable {s u : σ}

namespace LocalAt

/- Nothing is asked for. -/
theorem done
    (v : V)
    (hValue : f = fun τ _ t => mk τ v t) :
    LocalAt mk f s := by
  subst hValue
  refine ⟨[], v, s, .nil s, ?_⟩
  intro τ _ t w hTrail
  cases hTrail
  rfl

/- A condition that does not depend on the source. -/
theorem ite
    {c : Prop}
    [Decidable c]
    (hThen : c → LocalAt mk f s)
    (hElse : ¬ c → LocalAt mk k s) :
    LocalAt mk (fun τ _ t => if c then f τ t else k τ t) s := by
  split
  next hTrue => exact hThen hTrue
  next hFalse => exact hElse hFalse

/- A byte is asked for and kept. -/
theorem kept
    {answer : Fetch}
    (hNext : next s = (answer, u))
    (hStep :
      ∀ {τ : Type} [ByteSource τ] {t w : τ},
        next t = (answer, w) → f τ t = k τ w)
    (hRest : LocalAt mk k u) :
    LocalAt mk f s := by
  rcases hRest with ⟨es, v, u', hTrail, hYields⟩
  refine ⟨_, v, u', .kept hNext hTrail, ?_⟩
  intro τ _ t w hTrail
  cases hTrail with
  | kept hNext hRest =>
      rw [hStep hNext]
      exact hYields hRest

/- A byte is asked for and given back. -/
theorem returned
    {b : UInt8}
    (hNext : next s = (.byte b, u))
    (hStep :
      ∀ {τ : Type} [ByteSource τ] {t w : τ},
        next t = (.byte b, w) → f τ t = k τ (pushBack b w))
    (hRest : LocalAt mk k (pushBack b u)) :
    LocalAt mk f s := by
  rcases hRest with ⟨es, v, u', hTrail, hYields⟩
  refine ⟨_, v, u', .returned hNext hTrail, ?_⟩
  intro τ _ t w hTrail
  cases hTrail with
  | returned hNext hRest =>
      rw [hStep hNext]
      exact hYields hRest

/- The last byte is kept. -/
theorem keptLast
    {answer : Fetch}
    (v : V)
    (hNext : next s = (answer, u))
    (hStep :
      ∀ {τ : Type} [ByteSource τ] {t w : τ},
        next t = (answer, w) → f τ t = mk τ v w) :
    LocalAt mk f s :=
  kept hNext hStep (done v rfl)

/- The last byte is given back. -/
theorem returnedLast
    {b : UInt8}
    (v : V)
    (hNext : next s = (.byte b, u))
    (hStep :
      ∀ {τ : Type} [ByteSource τ] {t w : τ},
        next t = (.byte b, w) →
          f τ t = mk τ v (pushBack b w)) :
    LocalAt mk f s :=
  returned hNext hStep (done v rfl)

/- The value says how it goes on behind another reading. -/
theorem after
    (hFirst : LocalAt mkP g s)
    (hRest :
      ∀ v u, g σ s = mkP σ v u →
        ∃ k : Reading R,
          (∀ {τ : Type} [ByteSource τ] {t w : τ},
            g τ t = mkP τ v w → f τ t = k τ w) ∧
            LocalAt mk k u) :
    LocalAt mk f s := by
  rcases hFirst with ⟨es, v, m, hTrail, hYields⟩
  rcases hRest v m (hYields hTrail) with
    ⟨k, hStep, more, v', u, hMore, hYields'⟩
  refine ⟨_, v', u, hTrail.append hMore, ?_⟩
  intro τ _ t w hBoth
  rcases hBoth.split with ⟨m', hTrail', hMore'⟩
  rw [hStep (hYields hTrail')]
  exact hYields' hMore'

end LocalAt

end Local

------------------------------------------------------------
-- Plans
------------------------------------------------------------

section Plans

variable {σ : Type}
variable [ByteSource σ]

/- A value beside the source. -/
abbrev beside (V : Type) : Pairing V (V × ·) :=
  fun _ v s => (v, s)

/- A byte that is demanded is kept. -/
theorem demand_local
    (s : σ) :
    LocalAt (beside _) (fun _ _ t => demand t) s := by
  rcases hNext : next s with ⟨b | _ | m, u⟩
  · exact .keptLast (.ok b) hNext
      (fun h => by unfold demand; rw [h])
  · exact .keptLast (.error .malformed) hNext
      (fun h => by unfold demand; rw [h])
  · exact .keptLast (.error (.source m)) hNext
      (fun h => by unfold demand; rw [h])

/- So are all bytes that a plan asks for. -/
theorem Plan.run_local
    {α : Type}
    (p : Plan α)
    (s : σ) :
    LocalAt (beside _) (fun _ _ t => p.run t) s := by
  induction p generalizing s with
  | done v => exact .done (.ok v) rfl
  | stop cause => exact .done (.error cause) rfl
  | ask next ih =>
      refine (demand_local s).after ?_
      rintro (cause | b) u -
      · exact ⟨_, fun h => by rw [run, h],
          .done (.error cause) rfl⟩
      · exact ⟨_, fun h => by rw [run, h], ih b u⟩

/- What is done as planned is decided by what is read. -/
theorem Planned.localAt
    {α : Type}
    {f : Reading (Except Cause α × ·)}
    (hPlan : Planned f)
    (s : σ) :
    LocalAt (beside _) f s := by
  rcases hPlan with ⟨p, hRun⟩
  rcases p.run_local s with ⟨es, v, u, hTrail, hYields⟩
  refine ⟨es, v, u, hTrail, ?_⟩
  intro τ _ t w hTrail
  rw [hRun]
  exact hYields hTrail

end Plans

end PostScript
