import PostScript.Dictionary.Stack
import PostScript.Proofs.Name.WellFormed
import PostScript.Proofs.Object.Names

/-
  This file describes what reading program text may change:
  names are made, names that are looked up remember their
  cells, and comments are heard.

  Key definitions include:
    * `NameTable.Knows`
    * `Scope.Grounded`
    * `Reads`

  Main results:
    * `Reads.holds`
    * `Reads.grounded`
    * `Scope.Grounded.knows_load`
-/

namespace PostScript

/- All names in an object are in the table. -/
def NameTable.Knows
    (t : NameTable)
    (o : Object) : Prop :=
  ∀ n ∈ o.names, t.Holds n

/-
  The table holds all names that reading can give without
  making them: system names and names in the values of cells.
-/
structure Scope.Grounded
    (t : NameTable)
    (s : Scope) : Prop where
  system : ∀ n ∈ t.system, t.Holds n
  cells : ∀ c ∈ s.heap.cells, t.Knows c.2

/- What reading may make of a table and a scope. -/
inductive Reads
    (t : NameTable)
    (s : Scope) : NameTable → Scope → Prop where
  | refl : Reads t s t s
  | intern
      {t' : NameTable}
      {s' : Scope}
      (limit : Nat)
      (bytes : Bytes)
      (h : Reads t s t' s') :
      Reads t s (t'.internWithin limit bytes).2 s'
  | lookUp
      {t' : NameTable}
      {s' : Scope}
      {n : Name}
      (hn : t'.Holds n)
      (h : Reads t s t' s') :
      Reads t s (t'.load s' n).2 s'
  | comment
      {t' : NameTable}
      {s' : Scope}
      (text : Bytes)
      (h : Reads t s t' s') :
      Reads t s t' (Environment.comment s' text)

------------------------------------------------------------
-- Known Objects
------------------------------------------------------------

/- Looking a name up changes at most its hint. -/
theorem NameTable.load_cases
    {ε : Type}
    [Environment ε]
    (t : NameTable)
    (env : ε)
    (n : Name) :
    (Environment.find env (t.hint n) n = none ∧
      t.load env n = (none, t)) ∨
    (∃ v hint,
      Environment.find env (t.hint n) n = some (v, hint) ∧
      t.load env n = (some v, t.setHint n hint)) := by
  unfold NameTable.load
  cases hFind : Environment.find env (t.hint n) n with
  | none => exact .inl ⟨rfl, rfl⟩
  | some found =>
      rcases found with ⟨v, hint⟩
      exact .inr ⟨v, hint, rfl, rfl⟩

/- Names keep their entries when one is looked up. -/
theorem NameTable.holds_load
    {ε : Type}
    [Environment ε]
    (t : NameTable)
    (env : ε)
    (m n : Name) :
    (t.load env m).2.Holds n ↔ t.Holds n := by
  rcases t.load_cases env m with ⟨-, h⟩ | ⟨v, hint, -, h⟩
  · rw [h]
  · rw [h]
    exact holds_setHint t m n hint

/- A value that is found is the value of a cell. -/
theorem Scope.find_cell
    {s : Scope}
    {hint hint' : Option SlotId}
    {n : Name}
    {v : Object}
    (h : s.find hint n = some (v, hint')) :
    ∃ slot, s.heap.read? slot = some v := by
  unfold Scope.find at h
  split at h
  next value hHint =>
    simp only [Option.some.injEq, Prod.mk.injEq] at h
    rcases h with ⟨rfl, -⟩
    rcases Option.bind_eq_some_iff.mp hHint with
      ⟨slot, -, hRead⟩
    exact ⟨slot, hRead⟩
  next =>
    split at h
    next slot _ =>
      rcases Option.map_eq_some_iff.mp h with
        ⟨value, hRead, hPair⟩
      simp only [Prod.mk.injEq] at hPair
      exact ⟨slot, by rw [hRead, hPair.1]⟩
    next =>
      split at h
      next slot _ =>
        rcases Option.map_eq_some_iff.mp h with
          ⟨value, hRead, hPair⟩
        simp only [Prod.mk.injEq] at hPair
        exact ⟨slot, by rw [hRead, hPair.1]⟩
      next => contradiction

/- The value of a cell in use is one of the cells. -/
theorem Heap.mem_of_read?
    {h : Heap}
    {slot : SlotId}
    {v : Object}
    (hRead : h.read? slot = some v) :
    (slot, v) ∈ h.cells := by
  unfold Heap.read? at hRead
  rcases Option.map_eq_some_iff.mp hRead with
    ⟨c, hFind, rfl⟩
  have hSlot := List.find?_some hFind
  rw [beq_iff_eq] at hSlot
  rw [← hSlot]
  exact List.mem_of_find?_eq_some hFind

/- A value that is found is known. -/
theorem Scope.Grounded.knows_load
    {t : NameTable}
    {s : Scope}
    (hGrounded : s.Grounded t)
    {n : Name}
    {v : Object}
    (hLoad : (t.load s n).1 = some v) :
    t.Knows v := by
  rcases t.load_cases s n with ⟨-, h⟩ | ⟨v', hint, hFind, h⟩
  · rw [h] at hLoad
    contradiction
  · rw [h] at hLoad
    simp only [Option.some.injEq] at hLoad
    subst hLoad
    rcases Scope.find_cell hFind with ⟨slot, hRead⟩
    exact hGrounded.cells _ (Heap.mem_of_read? hRead)

/- A system name that is found is in the table. -/
theorem Scope.Grounded.holds_systemName
    {t : NameTable}
    {s : Scope}
    (hGrounded : s.Grounded t)
    {i : Nat}
    {n : Name}
    (hFound : t.systemName? i = some n) :
    t.Holds n :=
  hGrounded.system n (Array.mem_of_getElem? hFound)

------------------------------------------------------------
-- Reading
------------------------------------------------------------

namespace Reads

variable {t t' t'' : NameTable}
variable {s s' s'' : Scope}

/- Reading may go on. -/
theorem trans
    (hFirst : Reads t s t' s')
    (hNext : Reads t' s' t'' s'') :
    Reads t s t'' s'' := by
  induction hNext with
  | refl => exact hFirst
  | intern limit bytes _ ih => exact .intern limit bytes ih
  | lookUp hn _ ih => exact .lookUp hn ih
  | comment text _ ih => exact .comment text ih

/- Names keep their entries while text is read. -/
theorem holds
    (h : Reads t s t' s')
    {n : Name}
    (hn : t.Holds n) :
    t'.Holds n := by
  induction h with
  | refl => exact hn
  | intern limit bytes _ ih =>
      exact ih.internWithin limit bytes
  | lookUp _ _ ih =>
      exact (NameTable.holds_load _ _ _ _).mpr ih
  | comment _ _ ih => exact ih

/- Objects stay known while text is read. -/
theorem knows
    (h : Reads t s t' s')
    {o : Object}
    (ho : t.Knows o) :
    t'.Knows o :=
  fun n hn => h.holds (ho n hn)

/- Reading changes no cells. -/
theorem heap_eq
    (h : Reads t s t' s') :
    s'.heap = s.heap := by
  induction h with
  | refl => rfl
  | intern _ _ _ ih => exact ih
  | lookUp _ _ ih => exact ih
  | comment _ _ ih => exact ih

/- Reading changes nothing of the stack but the comments. -/
theorem stack_eq
    (h : Reads t s t' s') :
    ∃ comments,
      s'.stack = { s.stack with comments := comments } := by
  induction h with
  | refl => exact ⟨s.stack.comments, rfl⟩
  | intern _ _ _ ih => exact ih
  | lookUp _ _ ih => exact ih
  | @comment t' s' text _ ih =>
      rcases ih with ⟨comments, hStack⟩
      refine ⟨text :: comments, ?_⟩
      change ({ s'.stack with
        comments := text :: s'.stack.comments } :
          DictStack) = _
      rw [hStack]

/- Reading numbers no system names. -/
theorem system_eq
    (h : Reads t s t' s') :
    t'.system = t.system := by
  induction h with
  | refl => rfl
  | @intern t' s' limit bytes _ ih =>
      rcases t'.internWithin_cases limit bytes with
        ⟨-, h⟩ | ⟨_, -, -, h⟩ | ⟨-, -, h⟩
      all_goals
        rw [h]
        exact ih
  | @lookUp t' s' n _ _ ih =>
      rcases t'.load_cases s' n with ⟨-, h⟩ | ⟨_, _, -, h⟩
      all_goals
        rw [h]
        exact ih
  | comment _ _ ih => exact ih

/- The tables that reading leads to can be reached. -/
theorem reachable
    (h : Reads t s t' s')
    (ht : t.Reachable) :
    t'.Reachable := by
  induction h with
  | refl => exact ht
  | intern limit bytes _ ih => exact .internWithin limit bytes ih
  | @lookUp t' s' n _ _ ih =>
      rcases t'.load_cases s' n with ⟨-, h⟩ | ⟨v, hint, -, h⟩
      · rw [h]
        exact ih
      · rw [h]
        exact .setHint n hint ih
  | comment _ _ ih => exact ih

/- What can be read without making names stays known. -/
theorem grounded
    (h : Reads t s t' s')
    (hGrounded : s.Grounded t) :
    s'.Grounded t' := by
  constructor
  case system =>
    intro n hn
    rw [h.system_eq] at hn
    exact h.holds (hGrounded.system n hn)
  case cells =>
    intro c hc
    rw [h.heap_eq] at hc
    exact h.knows (hGrounded.cells c hc)

end Reads

end PostScript
