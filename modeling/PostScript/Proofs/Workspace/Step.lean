import Mathlib.Logic.Relation
import PostScript.Proofs.Workspace.Roots

/-
  This file breaks the changes of a workspace down into small
  steps and shows that a workspace stays coherent in each of
  them. To put a new stack in place of the old one and to make
  a name remember a cell are no steps: they may leave a name
  with a hint that search would not find.

  Key definitions include:
    * `Workspace.Step`
    * `Workspace.Steps`

  Main results:
    * `Workspace.Coherent.step`
    * `Workspace.Coherent.steps`
-/

namespace PostScript

namespace Workspace

------------------------------------------------------------
-- Steps
------------------------------------------------------------

/- The smallest changes that commands are made of. -/
inductive Step
    (w : Workspace) : Workspace → Prop where
  | read
      {names : NameTable}
      {scope : Scope}
      (h : Reads w.names w.scope names scope) :
      Step w { w with names := names, scope := scope }
  | forgetHint
      (n : Name) :
      Step w { w with names := w.names.setHint n none }
  | setLevel
      (level : UInt32) :
      Step w { w with names := w.names.setLevel level }
  | purge
      (level : UInt32) :
      Step w { w with
        names := w.names.purge w.refers w.scope.heap.isLive
          level }
  | collect :
      Step w { w with names := w.names.collect w.refers }
  | handles
      (s : Shelf Name)
      (h : ∀ n ∈ s.values,
        n ∈ w.handles.values ∨ w.names.Holds n) :
      Step w { w with handles := s }
  | objects
      (s : Shelf Object)
      (h : ∀ o ∈ s.values,
        o ∈ w.objects.values ∨ w.names.Knows o) :
      Step w { w with objects := s }
  | dicts
      (s : Shelf Dictionary)
      (h : ∀ d ∈ s.values,
        d ∈ w.dictionaries ∨ d = .empty) :
      Step w { w with dicts := s }
  | slots
      (s : Shelf SlotId) :
      Step w { w with slots := s }
  | sources
      (s : Shelf OpenSource) :
      Step w { w with sources := s }
  | settings
      (s : ScanSettings) :
      Step w { w with settings := s }
  | write
      (slot : SlotId)
      {o : Object}
      (ho : w.names.Knows o) :
      Step w { w with
        scope := ⟨w.scope.stack, w.scope.heap.write slot o⟩ }
  | allocate
      {o : Object}
      (ho : w.names.Knows o) :
      Step w { w with
        scope := ⟨w.scope.stack,
          (w.scope.heap.allocate o).2⟩ }
  | insert
      (label : String)
      {d : Dictionary}
      (hd : d ∈ w.dicts.values)
      {n : Name}
      (hn : w.names.Holds n)
      {o : Object}
      (ho : w.names.Knows o) :
      Step w { w with
        scope := ⟨w.scope.stack,
          (d.insert n o w.scope.heap).2⟩
        dicts := w.dicts.insert label
          (d.insert n o w.scope.heap).1 }
  | push
      {d : Dictionary}
      (hd : d ∈ w.dicts.values) :
      Step w { w with
        names := (w.scope.stack.push d w.names).2
        scope := ⟨(w.scope.stack.push d w.names).1,
          w.scope.heap⟩ }
  | pop :
      Step w { w with
        scope := ⟨w.scope.stack.pop.2, w.scope.heap⟩ }
  | define
      {n : Name}
      (hn : w.names.Holds n)
      {o : Object}
      (ho : w.names.Knows o) :
      Step w { w with
        names := (w.scope.define w.names n o).2
        scope := (w.scope.define w.names n o).1 }
  | defineSystem
      {n : Name}
      (hn : w.names.Holds n)
      {o : Object}
      (ho : w.names.Knows o) :
      Step w { w with scope := w.scope.defineSystem n o }
  | circumstances
      (vm : Vm)
      (level : UInt32)
      (comments : List Bytes) :
      Step w { w with
        scope := ⟨{ w.scope.stack with
          vm := vm, level := level, comments := comments },
          w.scope.heap⟩ }
  | sweep
      (wanted : SlotId → Bool) :
      Step w { w with
        scope := ⟨w.scope.stack, w.scope.heap.keep wanted⟩ }

/- Steps one after the other. -/
abbrev Steps : Workspace → Workspace → Prop :=
  Relation.ReflTransGen Step

------------------------------------------------------------
-- Coherence
------------------------------------------------------------

/- Keys may forget their cells one after the other. -/
theorem reachable_foldl_setHint
    {t : NameTable}
    (ht : t.Reachable)
    (keys : List Name) :
    (keys.foldl (fun t key => t.setHint key none)
        t).Reachable ∧
      ∀ n,
        (keys.foldl (fun t key => t.setHint key none)
          t).Holds n ↔ t.Holds n := by
  induction keys generalizing t with
  | nil => exact ⟨ht, fun _ => Iff.rfl⟩
  | cons key keys ih =>
      rcases ih (.setHint key none ht) with ⟨hTable, hHolds⟩
      refine ⟨hTable, ?_⟩
      intro n
      rw [List.foldl_cons, hHolds]
      exact t.holds_setHint key n none

/- The keys are known if the old keys and the new one are. -/
theorem holds_keys_insert
    {t : NameTable}
    {d : Dictionary}
    (hKeys : ∀ m ∈ d.keys, t.Holds m)
    {n : Name}
    (hn : t.Holds n)
    {o : Object}
    {heap : Heap} :
    ∀ m ∈ (d.insert n o heap).1.keys, t.Holds m := by
  intro m hm
  rcases Dictionary.mem_keys_insert hm with hm | rfl
  · exact hKeys m hm
  · exact hn

namespace Coherent

variable {w w' : Workspace}

/- The keys of the stacked dictionaries are known. -/
theorem frames
    (h : w.Coherent) :
    ∀ d ∈ w.scope.stack.frames,
      ∀ n ∈ d.keys, w.names.Holds n :=
  fun d hd => h.keys d (List.mem_append_right _ hd)

/- Cells may be followed by cells with known values. -/
theorem withHeap
    (h : w.Coherent)
    {heap : Heap}
    (hFollows : w.scope.heap.Follows heap)
    (hCells :
      ∀ c ∈ heap.cells,
        c ∈ w.scope.heap.cells ∨ w.names.Knows c.2) :
    ({ w with scope := ⟨w.scope.stack, heap⟩ } :
      Workspace).Coherent := by
  refine ⟨h.names, h.handles, h.objects, ?_,
    hFollows.numbered h.numbered, h.keys⟩
  intro c hc
  rcases hCells c hc with hc | hc
  · exact h.cells c hc
  · exact hc

/- The cell that an insertion fills may hold a known value. -/
theorem withInserted
    (h : w.Coherent)
    (d : Dictionary)
    (n : Name)
    {o : Object}
    (ho : w.names.Knows o) :
    ({ w with
      scope := ⟨w.scope.stack,
        (d.insert n o w.scope.heap).2⟩ } :
      Workspace).Coherent := by
  apply h.withHeap (.insert d n o _)
  intro c hc
  rcases Dictionary.mem_cells_insert hc with hc | hc
  · exact .inl hc
  · exact .inr (hc ▸ ho)

/- Dictionaries may be replaced if their keys are known. -/
theorem withStack
    (h : w.Coherent)
    {stack : DictStack}
    (hKeys :
      ∀ d ∈ stack.frames, ∀ n ∈ d.keys, w.names.Holds n) :
    ({ w with scope := ⟨stack, w.scope.heap⟩ } :
      Workspace).Coherent := by
  refine ⟨h.names, h.handles, h.objects, h.cells,
    h.numbered, ?_⟩
  intro d hd
  rcases List.mem_append.mp hd with hd | hd
  · exact h.keys d (List.mem_append_left _ hd)
  · exact hKeys d hd

/- Reading leaves a workspace coherent. -/
theorem reading
    (h : w.Coherent)
    {names : NameTable}
    {scope : Scope}
    (hReads : Reads w.names w.scope names scope) :
    ({ w with names := names, scope := scope } :
      Workspace).Coherent := by
  rcases hReads.stack_eq with ⟨comments, hStack⟩
  have hFrames : scope.stack.frames = w.scope.stack.frames := by
    rw [hStack]
    rfl
  constructor
  case names => exact Reads.reachable hReads h.names
  case handles => exact fun n hn => hReads.holds (h.handles n hn)
  case objects => exact fun o ho => hReads.knows (h.objects o ho)
  case cells => exact (hReads.grounded h.grounded).cells
  case numbered =>
    dsimp only
    rw [hReads.heap_eq]
    exact h.numbered
  case keys =>
    intro d hd n hn
    unfold dictionaries at hd
    dsimp only at hd
    rw [hFrames] at hd
    exact hReads.holds (h.keys d hd n hn)

/- Binding a name leaves a workspace coherent. -/
theorem defining
    (h : w.Coherent)
    {n : Name}
    (hn : w.names.Holds n)
    {o : Object}
    (ho : w.names.Knows o) :
    ({ w with
      names := (w.scope.define w.names n o).2
      scope := (w.scope.define w.names n o).1 } :
      Workspace).Coherent := by
  have hForgets := h.growing (.setHint n none h.names)
    (fun m hm => (w.names.holds_setHint n m none).mpr hm)
  have hn' := (w.names.holds_setHint n n none).mpr hn
  have ho' : (w.names.setHint n none).Knows o :=
    fun m hm => (w.names.holds_setHint n m none).mpr (ho m hm)
  have hOther := hForgets.frames
  unfold Scope.define
  dsimp only
  -- the innermost dictionary may be the user dictionary
  cases hPushed : w.scope.stack.pushed with
  | nil =>
      refine (hForgets.withInserted w.scope.stack.user n
        ho').withStack ?_
      intro d hd
      rcases DictStack.mem_frames.mp hd with hd | rfl | rfl
      · exact nomatch hd
      · exact holds_keys_insert (hOther _
          (DictStack.mem_frames.mpr (.inr (.inl rfl)))) hn'
      · exact hOther _ (DictStack.mem_frames.mpr
          (.inr (.inr rfl)))
  | cons d ds =>
      refine (hForgets.withInserted d n ho').withStack ?_
      intro d' hd'
      rcases DictStack.mem_frames.mp hd' with
        hd' | rfl | rfl
      · rcases List.mem_cons.mp hd' with rfl | hd'
        · refine holds_keys_insert (hOther d ?_) hn'
          rw [DictStack.mem_frames, hPushed]
          exact .inl (List.mem_cons_self ..)
        · apply hOther d'
          rw [DictStack.mem_frames, hPushed]
          exact .inl (List.mem_cons_of_mem _ hd')
      · exact hOther _ (DictStack.mem_frames.mpr
          (.inr (.inl rfl)))
      · exact hOther _ (DictStack.mem_frames.mpr
          (.inr (.inr rfl)))

/- A workspace stays coherent in every step. -/
theorem step
    (h : w.Coherent)
    (hStep : Step w w') :
    w'.Coherent := by
  cases hStep with
  | read hReads => exact h.reading hReads
  | forgetHint n =>
      exact h.growing (.setHint n none h.names)
        (fun m hm => (w.names.holds_setHint n m none).mpr hm)
  | setLevel level =>
      exact h.growing (.setLevel level h.names)
        (fun _ hm => hm)
  | purge level =>
      exact h.forgetting
        (.purge w.refers w.scope.heap.isLive level h.names)
        (fun n hn hRefers => hn.purge hRefers _ level)
  | collect =>
      exact h.forgetting (.collect w.refers h.names)
        (fun n hn hRefers => hn.collect hRefers)
  | handles s hs =>
      refine ⟨h.names, ?_, h.objects, h.cells, h.numbered,
        h.keys⟩
      intro n hn
      rcases hs n hn with hn | hn
      · exact h.handles n hn
      · exact hn
  | objects s hs =>
      refine ⟨h.names, h.handles, ?_, h.cells, h.numbered,
        h.keys⟩
      intro o ho
      rcases hs o ho with ho | ho
      · exact h.objects o ho
      · exact ho
  | dicts s hs =>
      refine ⟨h.names, h.handles, h.objects, h.cells,
        h.numbered, ?_⟩
      intro d hd
      rcases List.mem_append.mp hd with hd | hd
      · rcases hs d hd with hd | rfl
        · exact h.keys d hd
        · exact fun n hn => nomatch hn
      · exact h.frames d hd
  | slots s | sources s | settings s =>
      exact ⟨h.names, h.handles, h.objects, h.cells,
        h.numbered, h.keys⟩
  | write slot ho =>
      apply h.withHeap (.write _ slot _)
      intro c hc
      rcases (Heap.mem_cells_write hc).2 with hc | hc
      · exact .inl hc
      · exact .inr (hc ▸ ho)
  | allocate ho =>
      apply h.withHeap (.allocate _ _)
      intro c hc
      rcases List.mem_cons.mp hc with rfl | hc
      · exact .inr ho
      · exact .inl hc
  | @insert label d hd n hn o ho =>
      have hHeap := h.withInserted d n ho
      refine ⟨h.names, h.handles, h.objects, hHeap.cells,
        hHeap.numbered, ?_⟩
      intro d' hd' m hm
      rcases List.mem_append.mp hd' with hd' | hd'
      · rcases Shelf.mem_values_insert hd' with hd' | rfl
        · exact h.keys d' (List.mem_append_left _ hd') m hm
        · exact holds_keys_insert
            (h.keys d (List.mem_append_left _ hd)) hn m hm
      · exact h.frames d' hd' m hm
  | @push d hd =>
      rcases reachable_foldl_setHint h.names d.keys with
        ⟨hTable, hHolds⟩
      refine (h.growing hTable
        (fun m hm => (hHolds m).mpr hm)).withStack ?_
      intro d' hd' m hm
      refine (hHolds m).mpr ?_
      rcases List.mem_cons.mp hd' with rfl | hd'
      · exact h.keys d' (List.mem_append_left _ hd) m hm
      · exact h.frames d' hd' m hm
  | pop =>
      apply h.withStack
      intro d hd
      apply h.frames
      unfold DictStack.pop at hd
      split at hd
      · exact hd
      next d' ds hPushed =>
        rw [DictStack.mem_frames] at hd ⊢
        rw [hPushed]
        exact hd.imp_left (List.mem_cons_of_mem _)
  | define hn ho => exact h.defining hn ho
  | @defineSystem n hn o ho =>
      refine (h.withInserted w.scope.stack.system n
        ho).withStack ?_
      intro d hd
      rcases DictStack.mem_frames.mp hd with hd | rfl | rfl
      · exact h.frames d (DictStack.mem_frames.mpr (.inl hd))
      · exact h.frames _ (DictStack.mem_frames.mpr
          (.inr (.inl rfl)))
      · exact holds_keys_insert (h.frames _
          (DictStack.mem_frames.mpr (.inr (.inr rfl)))) hn
  | circumstances vm level comments =>
      exact h.withStack h.frames
  | sweep wanted =>
      apply h.withHeap (.keep _ wanted)
      intro c hc
      exact .inl (List.mem_filter.mp hc).1

/- A workspace stays coherent in any number of steps. -/
theorem steps
    (h : w.Coherent)
    (hSteps : Steps w w') :
    w'.Coherent := by
  induction hSteps with
  | refl => exact h
  | tail _ hStep ih => exact ih.step hStep

end Coherent

end Workspace

end PostScript
