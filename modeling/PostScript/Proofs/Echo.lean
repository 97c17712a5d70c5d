import PostScript.Error
import PostScript.Proofs.Run

/-
  This file compares two programs of which the second does
  what the first one does, step by step, but where the first
  may refuse to go on.

  Key definitions include:
    * `Answered`
    * `Echoes`

  Main results:
    * `Echoes.bind`
-/

namespace PostScript

variable {σ α β γ δ : Type}
variable {Refusal : Cause → Prop}
variable {R : β → α → Prop}
variable {S : δ → γ → Prop}

------------------------------------------------------------
-- Answers
------------------------------------------------------------

/-
  What the first answers the second answers too, unless the
  first refuses.
-/
inductive Answered
    (Refusal : Cause → Prop)
    (R : β → α → Prop) :
    Except Cause α → Except Cause β → Prop where
  | ok
      {v : α}
      {w : β}
      (hValue : R w v) :
      Answered Refusal R (.ok v) (.ok w)
  | error
      (cause : Cause) :
      Answered Refusal R (.error cause) (.error cause)
  | refused
      {cause : Cause}
      (hRefusal : Refusal cause)
      (y : Except Cause β) :
      Answered Refusal R (.error cause) y

------------------------------------------------------------
-- Programs
------------------------------------------------------------

/-
  From every state on the second program comes to the state
  and the value that the first one comes to, or it fails for
  the same cause, unless the first refuses.
-/
def Echoes
    (Refusal : Cause → Prop)
    (R : β → α → Prop)
    (x : EStateM Cause σ α)
    (y : EStateM Cause σ β) : Prop :=
  ∀ s,
    match x s with
    | .ok v s' => ∃ w, y s = .ok w s' ∧ R w v
    | .error cause _ =>
        Refusal cause ∨ ∃ s', y s = .error cause s'

namespace Echoes

variable {x : EStateM Cause σ α}
variable {y : EStateM Cause σ β}

/- What the first program gives the second one gives too. -/
theorem of_ok
    (h : Echoes Refusal R x y)
    {s s' : σ}
    {v : α}
    (hRun : x s = .ok v s') :
    ∃ w, y s = .ok w s' ∧ R w v := by
  have hStep := h s
  rw [hRun] at hStep
  exact hStep

/- Where it fails, so does the second, or it refuses. -/
theorem of_error
    (h : Echoes Refusal R x y)
    {s s' : σ}
    {cause : Cause}
    (hRun : x s = .error cause s') :
    Refusal cause ∨ ∃ s'', y s = .error cause s'' := by
  have hStep := h s
  rw [hRun] at hStep
  exact hStep

/- A program does what it does itself. -/
theorem same
    (x : EStateM Cause σ α) :
    Echoes Refusal (fun w v => w = v) x x := by
  intro s
  cases x s with
  | ok v s' => exact ⟨v, rfl, rfl⟩
  | error cause s' => exact .inr ⟨s', rfl⟩

/- Both give a value. -/
theorem pure
    {v : α}
    {w : β}
    (h : R w v) :
    Echoes Refusal R (Pure.pure v : EStateM Cause σ α)
      (Pure.pure w) :=
  fun _ => ⟨w, rfl, h⟩

/- Both fail. -/
theorem fail
    (cause : Cause) :
    Echoes Refusal R
      (MonadExcept.throw cause : EStateM Cause σ α)
      (MonadExcept.throw cause) :=
  fun s => .inr ⟨s, rfl⟩

/- The first refuses. -/
theorem refuse
    {cause : Cause}
    (hRefusal : Refusal cause)
    (y : EStateM Cause σ β) :
    Echoes Refusal R
      (MonadExcept.throw cause : EStateM Cause σ α) y :=
  fun _ => .inl hRefusal

/- Programs one after the other. -/
theorem bind
    {f : α → EStateM Cause σ γ}
    {g : β → EStateM Cause σ δ}
    (hFirst : Echoes Refusal R x y)
    (hNext : ∀ {v w}, R w v → Echoes Refusal S (f v) (g w)) :
    Echoes Refusal S (x >>= f) (y >>= g) := by
  intro s
  cases hRun : x s with
  | ok v s' =>
      rcases hFirst.of_ok hRun with ⟨w, hOther, hValue⟩
      rw [bind_of_ok hRun, bind_of_ok hOther]
      exact hNext hValue s'
  | error cause s' =>
      rw [bind_of_error hRun]
      rcases hFirst.of_error hRun with hRefusal | ⟨s'', hOther⟩
      · exact .inl hRefusal
      · exact .inr ⟨s'', bind_of_error hOther g⟩

/- Programs one after the other, the first shared. -/
theorem same_bind
    {x : EStateM Cause σ α}
    {f : α → EStateM Cause σ γ}
    {g : α → EStateM Cause σ δ}
    (hNext : ∀ v, Echoes Refusal S (f v) (g v)) :
    Echoes Refusal S (x >>= f) (x >>= g) :=
  bind (same x) (fun {v w} hSame => by
    rw [hSame]
    exact hNext v)

end Echoes

end PostScript
