import PostScript.Proofs.Environment.Sealed
import PostScript.Proofs.Name.WellFormed
import PostScript.Proofs.Numeric.Finite
import PostScript.Proofs.Sequence.Contents

/-
  This file tells what comes of each field of a record: text
  of the length that the record gives, a name that is known by
  number or has a text of some length, a value of a name. None
  of this takes another record, so the budget stays the same,
  and no system name is numbered anew.

  Key definitions include:
    * `Sequence.refusals`
    * `Sequence.Follows`
    * `Sequence.Fielded`
    * `Sequence.Spellable`

  Main results:
    * `Sequence.Payload.text_follows`
    * `Sequence.Payload.name_follows`
    * `Sequence.Payload.binding_follows`
-/

namespace PostScript.Sequence

variable {ε : Type}
variable [Environment ε]

/- A cause tells whether a record was refused, or none. -/
def refusals : Cause → Nat
  | .record .tooManyObjects _ _ _ => 1
  | _ => 0

/- The budget and the numbers of system names stay. -/
structure Follows
    (st st' : Progress) : Prop where
  budget : st'.budget = st.budget
  system : st'.names.system = st.names.system

instance : Onward Follows where
  refl _ := ⟨rfl, rfl⟩
  trans hFirst hNext :=
    ⟨hNext.budget.trans hFirst.budget,
      hNext.system.trans hFirst.system⟩

/- A program that takes no record, and what it gives. -/
abbrev Fielded
    {α : Type}
    (V : α → Progress → Prop)
    (x : Reading α)
    (st : Progress) : Prop :=
  Goes Follows V x st (fun cause => refusals cause = 0)

/-
  A name that a record can refer to: by a number, or by a text
  that has some bytes and not too many.
-/
def Spellable
    (n : Name)
    (st : Progress) : Prop :=
  n ∈ st.names.system ∨
    n.bytes.size ≠ 0 ∧ n.bytes.size ≤ maxLongNameLength

/- Making an array refuses no record. -/
theorem refusals_of_makeArray
    {env : ε}
    {executable : Bool}
    {es : List Object}
    {cause : Cause}
    (h : makeArray env executable es = .error cause) :
    refusals cause = 0 := by
  unfold makeArray at h
  split at h
  · cases h
    rfl
  · split at h
    · cases h
      rfl
    · contradiction

namespace Payload

variable {p : Payload}
variable {r : Record}
variable {st : Progress}

/- Text has the length that its record gives. -/
theorem text_follows :
    Fielded (fun bytes _ => bytes.size = r.length.toNat)
      (p.text r) st := by
  unfold Payload.text
  dsimp only
  split
  next hEmpty => exact Goes.pure hEmpty.symm
  next =>
    apply Goes.get_bind
    split
    · exact Goes.fail rfl
    next hInside =>
      refine Goes.set_bind ⟨rfl, rfl⟩ (Goes.pure ?_)
      rw [Array.size_extract]
      omega

/- Reserving a block takes no record yet. -/
theorem reserve_follows :
    Fielded (fun _ _ => True) (p.reserve r) st := by
  unfold Payload.reserve
  dsimp only
  split
  · exact Goes.pure trivial
  · split
    · exact Goes.fail rfl
    · apply Goes.get_bind
      split
      · exact Goes.fail rfl
      · exact Goes.set ⟨rfl, rfl⟩ trivial

/- A name that is made has the bytes it is made of. -/
theorem internLong_follows
    (bytes : Bytes) :
    Fielded (fun n _ => n.bytes = bytes) (internLong bytes)
      st := by
  unfold Payload.internLong
  apply Goes.get_bind
  have hSystem :
      (st.names.internLong bytes).2.system =
        st.names.system := by
    unfold NameTable.internLong
    rcases st.names.internWithin_cases maxLongNameLength bytes
      with ⟨-, h⟩ | ⟨_, -, -, h⟩ | ⟨-, -, h⟩
    · rw [h]
    · rw [h]
    · rw [h]
      rfl
  split
  next n names hIntern =>
    rw [hIntern] at hSystem
    exact Goes.set_bind ⟨rfl, hSystem⟩
      (Goes.pure (NameTable.holds_of_internWithin hIntern).2)
  next cause names hIntern =>
    rw [hIntern] at hSystem
    refine Goes.set_bind ⟨rfl, hSystem⟩ (Goes.fail ?_)
    unfold NameTable.internLong at hIntern
    rcases st.names.internWithin_cases maxLongNameLength bytes
      with ⟨-, h⟩ | ⟨_, -, -, h⟩ | ⟨-, -, h⟩
    · rw [h] at hIntern
      cases hIntern
      rfl
    · rw [h] at hIntern
      simp at hIntern
    · rw [h] at hIntern
      simp at hIntern

/- A name is known by number or has a text of some length. -/
theorem name_follows :
    Fielded Spellable (p.name r) st := by
  unfold Payload.name
  split
  · apply Goes.get_bind
    split
    next n hSystem =>
      exact Goes.pure (.inl (Array.mem_of_getElem? hSystem))
    next => exact Goes.fail rfl
  · split
    · exact Goes.fail rfl
    next hSome =>
      split
      · exact Goes.fail rfl
      next hShort =>
        refine Goes.bind text_follows ?_
        intro bytes st' _ hSize
        refine (internLong_follows bytes).imp ?_
        intro n st'' _ hBytes
        have hLength : r.length.toNat ≠ 0 := by
          intro hZero
          exact hSome (UInt16.toNat_inj.mp hZero)
        refine .inr ?_
        rw [hBytes, hSize]
        exact ⟨hLength, Nat.le_of_not_lt hShort⟩

/- What a name gives is its value in the environment. -/
theorem binding_follows
    (env : ε)
    (n : Name) :
    Fielded (fun o _ => Environment.Binds env o)
      (binding env n) st := by
  unfold Payload.binding
  apply Goes.get_bind
  unfold NameTable.load
  cases hFind :
      Environment.find env (st.names.hint n) n with
  | none => exact Goes.set_bind ⟨rfl, rfl⟩ (Goes.fail rfl)
  | some found =>
      exact Goes.set_bind ⟨rfl, rfl⟩
        (Goes.pure ⟨_, _, _, hFind⟩)

/- The checks of simple values take no record. -/
theorem unused_follows
    (valueToo : Bool) :
    Fielded (fun _ _ => True) (p.unused r valueToo) st := by
  unfold Payload.unused
  split
  · exact Goes.fail rfl
  · exact Goes.pure trivial

theorem boolean_follows :
    Fielded (fun _ _ => True) (p.boolean r) st := by
  unfold Payload.boolean
  split
  · exact Goes.pure trivial
  · split
    · exact Goes.pure trivial
    · exact Goes.fail rfl

/- A real is finite and has no extension. -/
theorem real_follows :
    Fielded (fun v _ => v.isFinite = true ∧ v.extension = 0)
      (Payload.real r) st := by
  unfold Payload.real
  split
  · split
    next hFinite => exact Goes.pure ⟨hFinite, rfl⟩
    next => exact Goes.fail rfl
  · split
    · exact Goes.pure ⟨FixedPoint.isFinite_toSingle _, rfl⟩
    · exact Goes.fail rfl

end Payload

end PostScript.Sequence
