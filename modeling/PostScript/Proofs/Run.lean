/-
  This file states rules for results that are mapped, and for
  programs that keep their state when they fail.

  Key definitions include:
    * `Onward`
    * `Goes`

  Main results:
    * `bind_of_ok`
    * `Goes.bind`
-/

namespace PostScript

variable {ε σ α β : Type}

------------------------------------------------------------
-- Mapped Results
------------------------------------------------------------

/- What a result is mapped to comes of that result. -/
theorem of_map_ok
    {x : Except ε α}
    {f : α → β}
    {w : β}
    (h : x.map f = .ok w) :
    ∃ v, x = .ok v ∧ f v = w := by
  cases x with
  | ok v => exact ⟨v, rfl, Except.ok.inj h⟩
  | error cause => contradiction

/- There is a mapped result where there is a result. -/
theorem exists_map_ok_iff
    {x : Except ε α}
    {f : α → β} :
    (∃ w, x.map f = .ok w) ↔ ∃ v, x = .ok v := by
  cases x with
  | ok v => exact ⟨fun _ => ⟨v, rfl⟩, fun _ => ⟨f v, rfl⟩⟩
  | error cause => exact ⟨nofun, nofun⟩

/- An error that is left of a mapped result was there. -/
theorem of_map_error
    {x : Except ε α}
    {f : α → β}
    {cause : ε}
    (h : x.map f = .error cause) :
    x = .error cause := by
  cases x with
  | ok v => contradiction
  | error cause' =>
      cases h
      rfl

------------------------------------------------------------
-- Single Runs
------------------------------------------------------------

/- A program that succeeds hands on its value and state. -/
theorem bind_of_ok
    {x : EStateM ε σ α}
    {s s' : σ}
    {v : α}
    (h : x s = .ok v s')
    (f : α → EStateM ε σ β) :
    (x >>= f) s = f v s' := by
  change EStateM.bind x f s = f v s'
  unfold EStateM.bind
  rw [h]

/- A program that fails leaves out what would follow. -/
theorem bind_of_error
    {x : EStateM ε σ α}
    {s s' : σ}
    {e : ε}
    (h : x s = .error e s')
    (f : α → EStateM ε σ β) :
    (x >>= f) s = .error e s' := by
  change EStateM.bind x f s = .error e s'
  unfold EStateM.bind
  rw [h]

/- A program may go on with its state. -/
theorem get_bind
    (f : σ → EStateM ε σ β)
    (s : σ) :
    ((get : EStateM ε σ σ) >>= f) s = f s s :=
  rfl

/- A program may go on in another state. -/
theorem set_bind
    (s' : σ)
    (f : PUnit → EStateM ε σ β)
    (s : σ) :
    ((set s' : EStateM ε σ PUnit) >>= f) s = f ⟨⟩ s' :=
  rfl

------------------------------------------------------------
-- Changes of State
------------------------------------------------------------

/- Changes of state that may be none and may be joined. -/
class Onward
    (R : σ → σ → Prop) : Prop where
  refl : ∀ s, R s s
  trans : ∀ {s s' s'' : σ}, R s s' → R s' s'' → R s s''

/-
  A program that changes a state in a given way, also when it
  fails, whose values are of a given kind and which fails, if
  at all, for reasons of a given kind.
-/
def Goes
    (R : σ → σ → Prop)
    (V : α → σ → Prop)
    (x : EStateM ε σ α)
    (s : σ)
    (E : ε → Prop := fun _ => True) : Prop :=
  match x s with
  | .ok v s' => R s s' ∧ V v s'
  | .error e s' => R s s' ∧ E e

namespace Goes

variable {R : σ → σ → Prop}
variable {V : α → σ → Prop}
variable {W : β → σ → Prop}
variable {E : ε → Prop}
variable {x : EStateM ε σ α}
variable {s : σ}

/- What holds of a run that succeeds. -/
theorem of_ok
    (h : Goes R V x s E)
    {v : α}
    {s' : σ}
    (hRun : x s = .ok v s') :
    R s s' ∧ V v s' := by
  unfold Goes at h
  rw [hRun] at h
  exact h

/- What holds of a run that fails. -/
theorem of_error
    (h : Goes R V x s E)
    {e : ε}
    {s' : σ}
    (hRun : x s = .error e s') :
    R s s' ∧ E e := by
  unfold Goes at h
  rw [hRun] at h
  exact h

/- Programs one after the other. -/
theorem bind
    [Onward R]
    {f : α → EStateM ε σ β}
    (hFirst : Goes R V x s E)
    (hNext :
      ∀ v s', R s s' → V v s' → Goes R W (f v) s' E) :
    Goes R W (x >>= f) s E := by
  cases hRun : x s with
  | error e s' =>
      unfold Goes
      rw [bind_of_error hRun]
      exact hFirst.of_error hRun
  | ok v s' =>
      rcases hFirst.of_ok hRun with ⟨hChange, hValue⟩
      have hThen := hNext v s' hChange hValue
      unfold Goes at hThen ⊢
      rw [bind_of_ok hRun]
      split at hThen
      all_goals
        exact ⟨Onward.trans hChange hThen.1, hThen.2⟩

/- A value is given and nothing changes. -/
theorem pure
    [Onward R]
    {v : α}
    (hValue : V v s) :
    Goes R V (Pure.pure v : EStateM ε σ α) s E :=
  ⟨Onward.refl s, hValue⟩

/- Nothing changes and there is no value. -/
theorem fail
    [Onward R]
    {e : ε}
    (hReason : E e) :
    Goes R V (MonadExcept.throw e : EStateM ε σ α) s E :=
  ⟨Onward.refl s, hReason⟩

/- Where every reason will do, none need be given. -/
theorem throw
    [Onward R]
    (e : ε) :
    Goes R V (MonadExcept.throw e : EStateM ε σ α) s :=
  fail trivial

/- The state is looked at. -/
theorem get_bind
    {f : σ → EStateM ε σ β}
    (hNext : Goes R W (f s) s E) :
    Goes R W ((MonadState.get : EStateM ε σ σ) >>= f) s E :=
  hNext

/- The state is replaced. -/
theorem set_bind
    [Onward R]
    {s' : σ}
    {f : PUnit → EStateM ε σ β}
    (hChange : R s s')
    (hNext : Goes R W (f ⟨⟩) s' E) :
    Goes R W
      ((MonadStateOf.set s' : EStateM ε σ PUnit) >>= f) s E :=
  Goes.bind (V := fun _ s₁ => s₁ = s')
    (x := (MonadStateOf.set s' : EStateM ε σ PUnit))
    ⟨hChange, rfl⟩
    (fun _ _ _ hSame => hSame ▸ hNext)

/- The state is replaced and nothing follows. -/
theorem set
    {V : PUnit → σ → Prop}
    {s' : σ}
    (hChange : R s s')
    (hValue : V ⟨⟩ s') :
    Goes R V (MonadStateOf.set s' : EStateM ε σ PUnit) s E :=
  ⟨hChange, hValue⟩

/- What is known of a run in two ways is known of it. -/
theorem and
    {R' : σ → σ → Prop}
    {V' : α → σ → Prop}
    {E' : ε → Prop}
    (h : Goes R V x s E)
    (h' : Goes R' V' x s E') :
    Goes R (fun v s' => V v s' ∧ V' v s') x s E := by
  unfold Goes at h h' ⊢
  cases hRun : x s with
  | ok v s' =>
      rw [hRun] at h h'
      exact ⟨h.1, h.2, h'.2⟩
  | error e s' =>
      rw [hRun] at h
      exact h

/- Less may be said about the change. -/
theorem mono
    {R' : σ → σ → Prop}
    (h : Goes R V x s E)
    (hChange : ∀ s', R s s' → R' s s') :
    Goes R' V x s E := by
  unfold Goes at h ⊢
  split at h
  all_goals exact ⟨hChange _ h.1, h.2⟩

/- Less may be said about the values. -/
theorem imp
    {V' : α → σ → Prop}
    (h : Goes R V x s E)
    (hValue : ∀ v s', R s s' → V v s' → V' v s') :
    Goes R V' x s E := by
  unfold Goes at h ⊢
  split at h
  · exact ⟨h.1, hValue _ _ h.1 h.2⟩
  · exact h

end Goes

end PostScript
