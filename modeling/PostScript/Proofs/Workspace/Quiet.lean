import PostScript.Proofs.Name.Levels
import PostScript.Proofs.Workspace.Step

/-
  This file names the steps that change no save level. They
  keep all names with their stamps, and names that they add
  are stamped with the level of the table.

  Key definitions include:
    * `Workspace.LeavesLevels`
    * `Workspace.QuietStep`
    * `Workspace.QuietSteps`

  Main results:
    * `Reads.leavesLevels`
    * `Workspace.leavesLevels_define`
    * `Workspace.QuietSteps.steps`
    * `Workspace.QuietSteps.leavesLevels`
-/

namespace PostScript

/- Reading stamps new names with the level of the table. -/
theorem Reads.leavesLevels
    {t t' : NameTable}
    {s s' : Scope}
    (h : Reads t s t' s') :
    t.LeavesLevels t' := by
  induction h with
  | refl => exact Onward.refl t
  | @intern t' s' limit bytes _ ih =>
      exact Onward.trans ih
        (t'.leavesLevels_internWithin limit bytes)
  | @lookUp t' s' n _ _ ih =>
      rcases t'.load_cases s' n with ⟨-, h⟩ | ⟨_, hint, -, h⟩
      · rw [h]
        exact ih
      · rw [h]
        exact Onward.trans ih (t'.leavesLevels_setHint n hint)
  | comment _ _ ih => exact ih

namespace Workspace

variable {w w' : Workspace}

------------------------------------------------------------
-- Levels
------------------------------------------------------------

/-
  The levels of the table and of the stack stay, and so do the
  names with their stamps.
-/
structure LeavesLevels
    (w w' : Workspace) : Prop where
  names : w.names.LeavesLevels w'.names
  stack : w'.scope.stack.level = w.scope.stack.level

instance : Onward LeavesLevels where
  refl w := ⟨Onward.refl w.names, rfl⟩
  trans hFirst hNext :=
    ⟨Onward.trans hFirst.names hNext.names,
      hNext.stack.trans hFirst.stack⟩

/- Binding a name leaves the levels. -/
theorem leavesLevels_define
    (w : Workspace)
    (n : Name)
    (o : Object) :
    LeavesLevels w { w with
      names := (w.scope.define w.names n o).2
      scope := (w.scope.define w.names n o).1 } := by
  unfold Scope.define
  dsimp only
  split
  all_goals
    exact ⟨w.names.leavesLevels_setHint n none, rfl⟩

------------------------------------------------------------
-- Quiet Steps
------------------------------------------------------------

/- A step that leaves the levels. -/
structure QuietStep
    (w w' : Workspace) : Prop where
  step : Step w w'
  leavesLevels : LeavesLevels w w'

/- Quiet steps one after the other. -/
abbrev QuietSteps : Workspace → Workspace → Prop :=
  Relation.ReflTransGen QuietStep

instance : Onward Steps where
  refl _ := .refl
  trans := Relation.ReflTransGen.trans

instance : Onward QuietSteps where
  refl _ := .refl
  trans := Relation.ReflTransGen.trans

namespace QuietStep

/-
  A step is quiet that changes neither the table nor the level
  of the stack.
-/
theorem aside
    (h : Step w w')
    (hNames : w'.names = w.names := by rfl)
    (hStack :
      w'.scope.stack.level = w.scope.stack.level := by rfl) :
    QuietStep w w' := by
  refine ⟨h, ?_, hStack⟩
  rw [hNames]
  exact Onward.refl w.names

/- Reading is quiet. -/
theorem read
    {names : NameTable}
    {scope : Scope}
    (h : Reads w.names w.scope names scope) :
    QuietStep w { w with names := names, scope := scope } := by
  rcases h.stack_eq with ⟨comments, hStack⟩
  exact ⟨.read h, h.leavesLevels, by rw [hStack]⟩

/- Forgetting a cell is quiet. -/
theorem forgetHint
    (n : Name) :
    QuietStep w { w with names := w.names.setHint n none } :=
  ⟨.forgetHint n, w.names.leavesLevels_setHint n none, rfl⟩

/- Pushing a dictionary is quiet. -/
theorem push
    {d : Dictionary}
    (hd : d ∈ w.dicts.values) :
    QuietStep w { w with
      names := (w.scope.stack.push d w.names).2
      scope := ⟨(w.scope.stack.push d w.names).1,
        w.scope.heap⟩ } :=
  ⟨.push hd, w.names.leavesLevels_forget d.keys, rfl⟩

/- Popping a dictionary is quiet. -/
theorem pop :
    QuietStep w { w with
      scope := ⟨w.scope.stack.pop.2, w.scope.heap⟩ } := by
  refine .aside .pop rfl ?_
  dsimp only [DictStack.pop]
  split <;> rfl

/- Binding a name is quiet. -/
theorem define
    {n : Name}
    (hn : w.names.Holds n)
    {o : Object}
    (ho : w.names.Knows o) :
    QuietStep w { w with
      names := (w.scope.define w.names n o).2
      scope := (w.scope.define w.names n o).1 } :=
  ⟨.define hn ho, leavesLevels_define w n o⟩

end QuietStep

namespace QuietSteps

/- Quiet steps are steps. -/
theorem steps
    (h : QuietSteps w w') :
    Steps w w' := by
  induction h with
  | refl => exact .refl
  | tail _ hStep ih => exact ih.tail hStep.step

/- Any number of quiet steps leaves the levels. -/
theorem leavesLevels
    (h : QuietSteps w w') :
    LeavesLevels w w' := by
  induction h with
  | refl => exact Onward.refl w
  | tail _ hStep ih =>
      exact Onward.trans ih hStep.leavesLevels

end QuietSteps

end Workspace

end PostScript
