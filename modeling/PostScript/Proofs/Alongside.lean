import PostScript.Error
import PostScript.Proofs.Run

/-
  This file compares two runs from states that differ in what
  should not matter. Both succeed, or both fail for the same
  cause, and the states remain alike.

  Key definitions include:
    * `Matched`
    * `Alongside`

  Main results:
    * `Alongside.bind`
    * `Alongside.get_bind`
-/

namespace PostScript

variable {σ α β : Type}
variable {T : σ → σ → Prop}
variable {V : α → α → Prop}
variable {W : β → β → Prop}

/-
  Both runs come to a value, or both fail for the same cause.
  The states that they come to are alike.
-/
inductive Matched
    (T : σ → σ → Prop)
    (V : α → α → Prop) :
    EStateM.Result Cause σ α → EStateM.Result Cause σ α →
      Prop where
  | ok
      {v w : α}
      {s s' : σ}
      (hValue : V v w)
      (hState : T s s') :
      Matched T V (.ok v s) (.ok w s')
  | error
      (cause : Cause)
      {s s' : σ}
      (hState : T s s') :
      Matched T V (.error cause s) (.error cause s')

/- Programs whose runs are matched in states that are alike. -/
def Alongside
    (T : σ → σ → Prop)
    (V : α → α → Prop)
    (x y : EStateM Cause σ α) : Prop :=
  ∀ s s', T s s' → Matched T V (x s) (y s')

namespace Alongside

variable {x y : EStateM Cause σ α}
variable {f g : α → EStateM Cause σ β}

/- Both give a value. -/
theorem pure
    {v w : α}
    (hValue : V v w) :
    Alongside T V (Pure.pure v : EStateM Cause σ α)
      (Pure.pure w) :=
  fun _ _ hState => .ok hValue hState

/- Both fail. -/
theorem fail
    (cause : Cause) :
    Alongside T V
      (MonadExcept.throw cause : EStateM Cause σ α)
      (MonadExcept.throw cause) :=
  fun _ _ hState => .error cause hState

/- Programs one after the other. -/
theorem bind
    (hFirst : Alongside T V x y)
    (hNext : ∀ {v w}, V v w → Alongside T W (f v) (g w)) :
    Alongside T W (x >>= f) (y >>= g) := by
  intro s s' hState
  have hRuns := hFirst s s' hState
  generalize hRun : x s = r at hRuns
  generalize hOther : y s' = r' at hRuns
  cases hRuns with
  | ok hValue hState' =>
      rw [bind_of_ok hRun, bind_of_ok hOther]
      exact hNext hValue _ _ hState'
  | error cause hState' =>
      rw [bind_of_error hRun, bind_of_error hOther]
      exact .error cause hState'

/- The states are looked at. -/
theorem get_bind
    {f g : σ → EStateM Cause σ β}
    (hNext :
      ∀ {s s'}, T s s' → Matched T W (f s s) (g s' s')) :
    Alongside T W
      ((MonadState.get : EStateM Cause σ σ) >>= f)
      ((MonadState.get : EStateM Cause σ σ) >>= g) :=
  fun _ _ hState => hNext hState

end Alongside

end PostScript
