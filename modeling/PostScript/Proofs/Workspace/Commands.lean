import PostScript.Proofs.Workspace.Parts
import PostScript.Workspace.Session

/-
  This file shows that every command of a session is made of
  steps, but for the two that put a new stack in place of the
  old one and make a name remember a cell. Most commands are
  made of quiet steps alone. A session is coherent at any
  time.

  Key definitions include:
    * `Command.isOrdinary`
    * `Command.isQuiet`
    * `Action.Stays`

  Main results:
    * `Action.ofCommand_quiet`
    * `Action.ofCommand_goes`
    * `Workspace.steps_perform`
    * `Workspace.Coherent.performAll`
-/

namespace PostScript

/-
  Commands after which hints may be followed: all but those
  that set a hint by hand or replace the stack.
-/
def Command.isOrdinary : Command → Bool
  | .setHint _ _ => false
  | .newStack _ => false
  | _ => true

/-
  Commands that leave the save levels alone, and with them all
  names: all but those that set a level by hand, enter or
  leave one, collect names or replace the stack.
-/
def Command.isQuiet : Command → Bool
  | .setLevel _ => false
  | .purge _ => false
  | .collect => false
  | .newStack _ => false
  | .save => false
  | .restore => false
  | _ => true

namespace Action

open Workspace

variable {w : Workspace}

------------------------------------------------------------
-- Dictionaries and Cells
------------------------------------------------------------

/- A value may be put into a cell that is kept. -/
theorem putSlot_goes
    (h : w.Coherent)
    (label : String)
    (r : Recipe) :
    Goes QuietSteps (fun _ _ => True) (putSlot label r) w := by
  unfold putSlot
  refine Goes.bind (make_goes h r) ?_
  rintro o w' - ⟨-, hKnown⟩
  apply Goes.get_bind
  split
  next slot _ =>
    exact Goes.set_bind (.single (.aside (.write slot hKnown)))
      (Goes.pure trivial)
  next =>
    exact Goes.set_bind
      (.tail (.single (.aside (.allocate hKnown)))
        (.aside (.slots _)))
      (Goes.pure trivial)

/- A key may be bound in a dictionary that is kept. -/
theorem insert_goes
    (h : w.Coherent)
    (label : String)
    (key : NameRef)
    (r : Recipe) :
    Goes QuietSteps (fun _ _ => True) (insert label key r)
      w := by
  unfold insert
  refine Goes.bind (name_goes h key) ?_
  rintro n w₁ hSteps ⟨-, hn⟩
  refine Goes.bind (make_goes (h.steps hSteps.steps) r) ?_
  rintro o w₂ - ⟨hGrown, hKnown⟩
  refine Goes.bind (dict_goes label) ?_
  rintro d _ - ⟨rfl, hd⟩
  apply Goes.get_bind
  refine Goes.set_bind
    (.single (.aside
      (.insert label hd (hGrown.holds hn) hKnown))) ?_
  exact Goes.bind (listing_goes _)
    (fun _ _ _ _ => Goes.pure trivial)

/- A name may be bound if the binding is a quiet step. -/
theorem define_goes
    (h : w.Coherent)
    (key : NameRef)
    (r : Recipe)
    (f : Name → Object → Workspace → Workspace)
    (hStep :
      ∀ n o (w : Workspace), w.names.Holds n →
        w.names.Knows o → QuietStep w (f n o w)) :
    Goes QuietSteps (fun _ _ => True) (define key r f) w := by
  unfold define
  refine Goes.bind (name_goes h key) ?_
  rintro n w₁ hSteps ⟨-, hn⟩
  refine Goes.bind (make_goes (h.steps hSteps.steps) r) ?_
  rintro o w₂ - ⟨hGrown, hKnown⟩
  refine Goes.bind (V := fun _ _ => True)
    ⟨.single (hStep n o w₂ (hGrown.holds hn) hKnown),
      trivial⟩ ?_
  intro _ _ _ _
  refine Goes.bind (mention_goes n) ?_
  intro _ _ _ _
  exact Goes.get_bind (Goes.pure trivial)

/- A dictionary that is kept may be pushed. -/
theorem pushDict_goes
    (label : String) :
    Goes QuietSteps (fun _ _ => True) (pushDict label) w := by
  unfold pushDict
  refine Goes.bind (dict_goes label) ?_
  rintro d _ - ⟨rfl, hd⟩
  apply Goes.get_bind
  exact Goes.set_bind (.single (.push hd)) (Goes.pure trivial)

/- What is popped was on the stack. -/
theorem mem_frames_of_pop
    {s : DictStack}
    {d : Dictionary}
    (hPop : s.pop.1 = some d) :
    d ∈ s.frames := by
  unfold DictStack.pop at hPop
  split at hPop
  · contradiction
  next d' ds hPushed =>
    simp only [Option.some.injEq] at hPop
    rw [DictStack.mem_frames, hPushed, hPop]
    exact .inl (List.mem_cons_self ..)

/- A dictionary may be popped and kept. -/
theorem popDict_goes
    (keep : Option String) :
    Goes QuietSteps (fun _ _ => True) (popDict keep) w := by
  unfold popDict
  apply Goes.get_bind
  have hPop : QuietStep w { w with
      scope := ⟨w.scope.stack.pop.2, w.scope.heap⟩ } := .pop
  cases hPopped : w.scope.stack.pop with
  | mk popped stack =>
      rw [hPopped] at hPop
      cases popped with
      | none =>
          exact Goes.set_bind (.single hPop)
            (Goes.pure trivial)
      | some d =>
          have hd : d ∈ w.dictionaries :=
            List.mem_append_right _
              (mem_frames_of_pop (by rw [hPopped]))
          cases keep with
          | none =>
              refine Goes.set_bind (.single hPop) ?_
              exact Goes.bind (listing_goes d)
                (fun _ _ _ _ => Goes.pure trivial)
          | some label =>
              have hKeep : QuietStep w { w with
                  dicts := w.dicts.insert label d } := by
                refine .aside (.dicts _ ?_)
                intro d' hd'
                rcases Shelf.mem_values_insert hd' with
                  hd' | rfl
                · exact .inl (List.mem_append_left _ hd')
                · exact .inl hd
              have hThen :
                  QuietStep { w with
                    dicts := w.dicts.insert label d }
                    { w with
                      dicts := w.dicts.insert label d
                      scope := ⟨stack, w.scope.heap⟩ } := by
                have hPop' := QuietStep.pop
                  (w := { w with
                    dicts := w.dicts.insert label d })
                dsimp only at hPop'
                rw [hPopped] at hPop'
                exact hPop'
              refine Goes.set_bind
                (.tail (.single hKeep) hThen) ?_
              exact Goes.bind (listing_goes d)
                (fun _ _ _ _ => Goes.pure trivial)

------------------------------------------------------------
-- Looking Up
------------------------------------------------------------

/- A name may be looked up on the stack. -/
theorem load_goes
    (h : w.Coherent)
    (key : NameRef) :
    Goes QuietSteps (fun _ _ => True) (load key) w := by
  unfold load
  refine Goes.bind (name_goes h key) ?_
  rintro n w' - ⟨-, hn⟩
  apply Goes.get_bind
  refine Goes.set_bind (.single (.read (.lookUp hn .refl))) ?_
  exact Goes.bind (mention_goes n)
    (fun _ _ _ _ => Goes.pure trivial)

------------------------------------------------------------
-- Scanning
------------------------------------------------------------

/- A call of the scanner only reads. -/
theorem scan_goes
    {σ : Type}
    [ByteSource σ]
    (h : w.Coherent)
    (src : σ) :
    Goes QuietSteps
      (fun r w' =>
        ∀ o, r.1 = .ok (some o) → w'.names.Knows o)
      (scanning src Scanner.scan) w :=
  scanning_goes src
    (V := fun (r : Except Error (Option Object)) t =>
      ∀ o, r = .ok (some o) → t.Knows o)
    (Scanner.scan_yields w.settings
      ⟨src, w.names, w.scope⟩ h.grounded)

/- The scanner may be called once on a source. -/
theorem scanNext_goes
    (h : w.Coherent)
    (label : String)
    (keep : Option String) :
    Goes QuietSteps (fun _ _ => True) (scanNext label keep)
      w := by
  unfold scanNext
  refine Goes.bind (source_goes label) ?_
  rintro opened _ - rfl
  refine Goes.bind (scan_goes h opened.source) ?_
  rintro ⟨r, src⟩ w' - hKnown
  refine Goes.bind (keepSource_goes label src none) ?_
  rintro _ w'' - hNames
  split
  next o =>
    have hKnows : w''.names.Knows o := by
      rw [hNames]
      exact hKnown o rfl
    exact Goes.bind (keepObject_goes keep hKnows)
      (fun _ _ _ _ => Goes.pure trivial)
  next => exact Goes.pure trivial

/- The scanner may be called to the end of a source. -/
theorem scanAll_goes
    (h : w.Coherent)
    (src : Source)
    (failures : Nat)
    (keep : Option String) :
    Goes QuietSteps (fun _ _ => True) (scanAll src failures keep)
      w := by
  unfold scanAll
  refine Goes.bind (scanning_goes src
    (V := fun rs t => Scanner.KnownReplies rs t)
    (Scanner.transcript_yields w.settings failures
      ⟨src, w.names, w.scope⟩ h.grounded)) ?_
  rintro ⟨rs, src'⟩ w' - hKnown
  refine Goes.bind (keepObjects_goes keep ?_)
    (fun _ _ _ _ => Goes.pure trivial)
  intro o ho
  rcases List.mem_filterMap.mp ho with ⟨r, hr, hResult⟩
  cases hCase : r.result with
  | error e =>
      rw [hCase] at hResult
      contradiction
  | ok found =>
      rw [hCase] at hResult
      dsimp only at hResult
      exact hKnown r hr o (by rw [hCase, hResult])

/- The scanner may be called on bytes. -/
theorem scanBytes_goes
    (h : w.Coherent)
    (data : Bytes)
    (offset : Nat)
    (line : Int) :
    Goes QuietSteps (fun _ _ => True) (scanBytes data offset line)
      w := by
  unfold scanBytes
  refine Goes.bind (scan_goes h _) ?_
  rintro ⟨result, r⟩ w' - -
  dsimp only
  split
  · exact Goes.throw _
  · exact Goes.pure trivial
  · exact Goes.pure trivial

/- A byte may be read from a source. -/
theorem nextByte_goes
    (label : String) :
    Goes QuietSteps (fun _ _ => True) (nextByte label) w := by
  unfold nextByte
  refine Goes.bind (source_goes label) ?_
  intro opened w' _ _
  dsimp only
  split
  all_goals
    exact Goes.bind (keepSource_goes label _ _)
      (fun _ _ _ _ => Goes.pure trivial)

/- A byte may be pushed back. -/
theorem pushBack_goes
    (label : String) :
    Goes QuietSteps (fun _ _ => True) (pushBack label) w := by
  unfold pushBack
  refine Goes.bind (source_goes label) ?_
  intro opened w' _ _
  split
  · exact Goes.throw _
  · exact Goes.bind (keepSource_goes label _ none)
      (fun _ _ _ _ => Goes.pure trivial)

/- Comments may be handed out. -/
theorem hearComments_goes :
    Goes QuietSteps (fun _ _ => True) hearComments w := by
  unfold hearComments
  apply Goes.get_bind
  exact Goes.set_bind
    (.single (.aside (.circumstances w.scope.stack.vm
      w.scope.stack.level [])))
    (Goes.pure trivial)

------------------------------------------------------------
-- Commands
------------------------------------------------------------

/- A change may be made that is a quiet step. -/
theorem modify_goes
    (f : Workspace → Workspace)
    (hStep : QuietStep w (f w)) :
    Goes QuietSteps (fun _ w' => w' = f w)
      (modify f : Action Unit) w :=
  ⟨.single hStep, rfl⟩

/- A dictionary may be kept that is empty or a copy. -/
theorem newDict_goes
    (label : String)
    (copyOf : Option String) :
    Goes QuietSteps (fun _ _ => True)
      (ofCommand (.newDict label copyOf)) w := by
  have hRest : ∀ d, d ∈ w.dictionaries ∨ d = .empty →
      Goes QuietSteps (fun _ _ => True)
        (do
          modify (fun w : Workspace =>
            { w with dicts := w.dicts.insert label d })
          let l ← listing d
          pure (.dict l) : Action Answer) w := by
    intro d hd
    refine Goes.bind (modify_goes _ (.aside (.dicts _ ?_))) ?_
    · intro d' hd'
      rcases Shelf.mem_values_insert hd' with hd' | rfl
      · exact .inl (List.mem_append_left _ hd')
      · exact hd
    · intro _ _ _ _
      exact Goes.bind (listing_goes d)
        (fun _ _ _ _ => Goes.pure trivial)
  cases copyOf with
  | none => exact hRest .empty (.inr rfl)
  | some other =>
      refine Goes.bind (dict_goes other) ?_
      rintro d _ - ⟨rfl, hd⟩
      exact hRest d (.inl (List.mem_append_left _ hd))

/- An ordinary command that is quiet is made of quiet steps. -/
theorem ofCommand_quiet
    (h : w.Coherent)
    {c : Command}
    (hc : c.isOrdinary = true)
    (hQuiet : c.isQuiet = true) :
    Goes QuietSteps (fun _ _ => True) (ofCommand c) w := by
  cases c with
  | setHint label slot => exact absurd hc Bool.false_ne_true
  | setLevel level => exact absurd hQuiet Bool.false_ne_true
  | purge level => exact absurd hQuiet Bool.false_ne_true
  | collect => exact absurd hQuiet Bool.false_ne_true
  | newStack system => exact absurd hc Bool.false_ne_true
  | save => exact absurd hQuiet Bool.false_ne_true
  | restore => exact absurd hQuiet Bool.false_ne_true
  | intern bytes keep =>
      refine Goes.bind
        (intern_goes maxNameLength _ (fun _ _ => rfl) bytes) ?_
      rintro n w' - ⟨-, hn⟩
      apply answerName_goes
      rintro m ⟨rfl⟩
      exact hn
  | internLong bytes keep =>
      refine Goes.bind
        (intern_goes maxLongNameLength _ (fun _ _ => rfl)
          bytes) ?_
      rintro n w' - ⟨-, hn⟩
      apply answerName_goes
      rintro m ⟨rfl⟩
      exact hn
  | lookup bytes keep =>
      exact Goes.get_bind (answerName_goes keep
        (fun n hn => (NameTable.holds_of_lookup hn).1))
  | systemName index keep =>
      exact Goes.get_bind (answerName_goes keep
        (fun n hn => h.grounded.holds_systemName hn))
  | dropHandle label =>
      unfold ofCommand
      refine dropping_goes _ _ label ?_
      exact .aside (.handles _
        (fun n hn => .inl (Shelf.mem_values_erase hn)))
  | showName label =>
      refine Goes.bind (handle_goes label) ?_
      intro n _ _ _
      exact Goes.bind (mention_goes n)
        (fun _ _ _ _ => Goes.pure trivial)
  | compare a b =>
      refine Goes.bind (handle_goes a) ?_
      intro _ _ _ _
      exact Goes.bind (handle_goes b)
        (fun _ _ _ _ => Goes.pure trivial)
  | showTable sorted =>
      exact Goes.get_bind (Goes.pure trivial)
  | listTable start =>
      exact Goes.get_bind (Goes.pure trivial)
  | putSlot label r => exact putSlot_goes h label r
  | dropSlot label =>
      unfold ofCommand
      refine dropping_goes _ _ label ?_
      exact .aside (.slots _)
  | clearHint label =>
      refine Goes.bind (handle_goes label) ?_
      intro n _ _ _
      refine Goes.bind (modify_goes _ (.forgetHint n)) ?_
      intro _ _ _ _
      exact Goes.bind (mention_goes n)
        (fun _ _ _ _ => Goes.pure trivial)
  | newDict label copyOf => exact newDict_goes label copyOf
  | insert label key r => exact insert_goes h label key r
  | lookIn label key =>
      refine Goes.bind (name_goes h key) ?_
      intro _ _ _ _
      refine Goes.bind (dict_goes label) ?_
      intro _ _ _ _
      exact Goes.get_bind (Goes.pure trivial)
  | showDict label =>
      refine Goes.bind (dict_goes label) ?_
      intro d _ _ _
      exact Goes.bind (listing_goes d)
        (fun _ _ _ _ => Goes.pure trivial)
  | dropDict label =>
      unfold ofCommand
      refine dropping_goes _ _ label ?_
      exact .aside (.dicts _
        (fun d hd => .inl (List.mem_append_left _
          (Shelf.mem_values_erase hd))))
  | pushDict label => exact pushDict_goes label
  | popDict keep => exact popDict_goes keep
  | define key r =>
      exact define_goes h key r _
        (fun _ _ _ hn ho => .define hn ho)
  | defineSystem key r =>
      exact define_goes h key r _
        (fun _ _ _ hn ho => .aside (.defineSystem hn ho))
  | load key => exact load_goes h key
  | allocate vm =>
      exact Goes.bind
        (modify_goes _ (.aside (.circumstances vm
          w.scope.stack.level w.scope.stack.comments)))
        (fun _ _ _ _ => Goes.pure trivial)
  | hold label r =>
      refine Goes.bind (make_goes h r) ?_
      rintro o w' - ⟨-, hKnown⟩
      exact Goes.bind (keepObject_goes (some label) hKnown)
        (fun _ _ _ _ => Goes.pure trivial)
  | showObject label =>
      exact Goes.get_bind (Goes.bind (expect_goes _ _)
        (fun _ _ _ _ => Goes.pure trivial))
  | release label =>
      unfold ofCommand
      refine dropping_goes _ _ label ?_
      exact .aside (.objects _
        (fun o ho => .inl (Shelf.mem_values_erase ho)))
  | releaseAll =>
      refine Goes.bind (modify_goes _ (.aside (.objects _ ?_)))
        (fun _ _ _ _ => Goes.pure trivial)
      intro o ho
      rw [Std.HashMap.values_empty] at ho
      contradiction
  | configure cfg =>
      exact Goes.bind (modify_goes _ (.aside (.settings cfg)))
        (fun _ _ _ _ => Goes.pure trivial)
  | scan src failures keep =>
      exact scanAll_goes h src failures keep
  | scanBytes data offset line =>
      exact scanBytes_goes h data offset line
  | openSource label src =>
      exact Goes.bind (keepSource_goes label src none)
        (fun _ _ _ _ => Goes.pure trivial)
  | scanNext label keep => exact scanNext_goes h label keep
  | nextByte label => exact nextByte_goes label
  | pushBack label => exact pushBack_goes label
  | hearComments => exact hearComments_goes
  | decodeToken data keep =>
      unfold ofCommand
      refine decoding_goes keep ?_
      exact BinaryToken.decode_goes data h.grounded
  | decodeSequence data keep =>
      unfold ofCommand
      refine decoding_goes keep ?_
      exact Sequence.read_goes data h.grounded
  | encode format r =>
      refine Goes.bind (make_goes h r) ?_
      intro o _ _ _
      exact Goes.bind (ofExcept_goes _)
        (fun _ _ _ _ => Goes.pure trivial)

------------------------------------------------------------
-- Save Levels
------------------------------------------------------------

/- A save level may be entered. -/
theorem save_goes :
    Goes Steps (fun _ _ => True) save w := by
  unfold save
  apply Goes.get_bind
  exact Goes.set_bind
    (.tail (.single (.setLevel (w.scope.stack.level + 1)))
      (.circumstances w.scope.stack.vm
        (w.scope.stack.level + 1) w.scope.stack.comments))
    (Goes.pure trivial)

/- A save level may be left. -/
theorem restore_goes :
    Goes Steps (fun _ _ => True) restore w := by
  unfold restore
  apply Goes.get_bind
  exact Goes.set_bind
    (.tail (.single (.purge w.scope.stack.outerLevel))
      (.circumstances w.scope.stack.vm
        w.scope.stack.outerLevel w.scope.stack.comments))
    (Goes.pure trivial)

/- An ordinary command is made of steps. -/
theorem ofCommand_goes
    (h : w.Coherent)
    {c : Command}
    (hc : c.isOrdinary = true) :
    Goes Steps (fun _ _ => True) (ofCommand c) w := by
  by_cases hQuiet : c.isQuiet = true
  · exact (ofCommand_quiet h hc hQuiet).mono
      (fun _ hSteps => hSteps.steps)
  · cases c with
    | setLevel level =>
        exact Goes.bind (V := fun _ _ => True)
          ⟨.single (.setLevel level), trivial⟩
          (fun _ _ _ _ => Goes.pure trivial)
    | purge level =>
        exact Goes.bind
          (forgetNames_goes
            (fun names refers alive =>
              names.purge refers alive level) (.purge level))
          (fun _ _ _ _ => Goes.get_bind (Goes.pure trivial))
    | collect =>
        exact Goes.bind
          (forgetNames_goes
            (fun names refers _ => names.collect refers)
            .collect)
          (fun _ _ _ _ => Goes.get_bind (Goes.pure trivial))
    | newStack system => exact absurd hc Bool.false_ne_true
    | save => exact save_goes
    | restore => exact restore_goes
    | _ => exact absurd rfl hQuiet

------------------------------------------------------------
-- Hints and Stacks Set by Hand
------------------------------------------------------------

/- A workspace that is coherent stays so. -/
abbrev Stays
    (w w' : Workspace) : Prop :=
  w.Coherent → w'.Coherent

instance : Onward Stays where
  refl _ := id
  trans hFirst hNext := hNext ∘ hFirst

/- What is made of quiet steps keeps a workspace coherent. -/
theorem stays
    {α : Type}
    {V : α → Workspace → Prop}
    {x : Action α}
    (h : Goes QuietSteps V x w) :
    Goes Stays V x w :=
  h.mono (fun _ hSteps hw => hw.steps hSteps.steps)

/- A name may be made to remember any cell. -/
theorem setHint_stays
    (label slot : String) :
    Goes Stays (fun _ _ => True)
      (ofCommand (.setHint label slot)) w := by
  refine Goes.bind (stays (handle_goes label)) ?_
  intro n w₁ _ _
  apply Goes.get_bind
  refine Goes.bind (stays (expect_goes _ _)) ?_
  intro id w₂ _ _
  have hSet :
      Stays w₂
        { w₂ with names := w₂.names.setHint n (some id) } :=
    fun hw => hw.growing (.setHint n (some id) hw.names)
      (fun m hm =>
        (w₂.names.holds_setHint n m (some id)).mpr hm)
  unfold setHint
  refine Goes.bind (V := fun _ _ => True)
    ⟨hSet, trivial⟩ ?_
  intro _ _ _ _
  exact Goes.bind (stays (mention_goes n))
    (fun _ _ _ _ => Goes.pure trivial)

/- A stack may begin anew with a dictionary that is kept. -/
theorem newStack_stays
    (system : Option String) :
    Goes Stays (fun _ _ => True)
      (ofCommand (.newStack system)) w := by
  have hRest : ∀ d, d ∈ w.dicts.values ∨ d = .empty →
      Goes Stays (fun _ _ => True)
        (do
          modify (fun w : Workspace =>
            { w with scope := ⟨.ofSystem d, w.scope.heap⟩ })
          let w ← get
          pure (.depth w.scope.stack.depth) : Action Answer)
        w := by
    intro d hd
    refine Goes.bind (V := fun _ _ => True)
      ⟨?_, trivial⟩
      (fun _ _ _ _ => Goes.get_bind (Goes.pure trivial))
    intro hw
    apply hw.withStack
    intro d' hd' n hn
    rcases DictStack.mem_frames.mp hd' with hd' | rfl | rfl
    · exact nomatch hd'
    · exact nomatch hn
    · rcases hd with hd | rfl
      · exact hw.keys d' (List.mem_append_left _ hd) n hn
      · exact nomatch hn
  cases system with
  | none => exact hRest .empty (.inr rfl)
  | some label =>
      refine Goes.bind (stays (dict_goes label)) ?_
      rintro d _ - ⟨rfl, hd⟩
      exact hRest d (.inl hd)

/- Every command keeps a workspace coherent. -/
theorem ofCommand_stays
    (h : w.Coherent)
    (c : Command) :
    Goes Stays (fun _ _ => True) (ofCommand c) w := by
  by_cases hc : c.isOrdinary = true
  · exact (ofCommand_goes h hc).mono
      (fun _ hSteps hw => hw.steps hSteps)
  · cases c with
    | setHint label slot => exact setHint_stays label slot
    | newStack system => exact newStack_stays system
    | _ => exact absurd rfl hc

end Action

------------------------------------------------------------
-- Sessions
------------------------------------------------------------

namespace Workspace

variable {w : Workspace}

/- An ordinary command is performed in steps. -/
theorem steps_perform
    (h : w.Coherent)
    {c : Command}
    (hc : c.isOrdinary = true) :
    Steps w (w.perform c).2 := by
  have hGoes := Action.ofCommand_goes h hc
  unfold perform
  cases hRun : Action.ofCommand c w with
  | ok v w' =>
      exact (hGoes.of_ok hRun).1.tail (.sweep _)
  | error t w' =>
      exact (hGoes.of_error hRun).1.tail (.sweep _)

/- A command leaves a workspace coherent. -/
theorem Coherent.perform
    (h : w.Coherent)
    (c : Command) :
    (w.perform c).2.Coherent := by
  have hGoes := Action.ofCommand_stays h c
  unfold Workspace.perform
  cases hRun : Action.ofCommand c w with
  | ok v w' =>
      exact ((hGoes.of_ok hRun).1 h).step (.sweep _)
  | error t w' =>
      exact ((hGoes.of_error hRun).1 h).step (.sweep _)

/- So do commands one after the other. -/
theorem Coherent.performAll
    (h : w.Coherent)
    (cs : List Command) :
    (w.performAll cs).Coherent := by
  induction cs generalizing w with
  | nil => exact h
  | cons c cs ih => exact ih (h.perform c)

/- Ordinary commands are performed in steps. -/
theorem steps_performAll
    (h : w.Coherent)
    {cs : List Command}
    (hcs : ∀ c ∈ cs, c.isOrdinary = true) :
    Steps w (w.performAll cs) := by
  induction cs generalizing w with
  | nil => exact .refl
  | cons c cs ih =>
      rcases List.forall_mem_cons.mp hcs with ⟨hc, hRest⟩
      exact (steps_perform h hc).trans (ih (h.perform c) hRest)

/- A session begins coherent. -/
theorem coherent_initial
    (settings : ScanSettings) :
    (initial settings).Coherent := by
  constructor
  case names =>
    unfold initial
    dsimp only
    exact .initial
  case handles =>
    intro n hn
    simp only [initial, Std.HashMap.values_empty] at hn
    exact absurd hn List.not_mem_nil
  case objects =>
    intro o ho
    simp only [initial, Std.HashMap.values_empty] at ho
    contradiction
  case cells => exact fun c hc => nomatch hc
  case numbered => exact fun c hc => nomatch hc
  case keys =>
    intro d hd n hn
    rcases List.mem_append.mp hd with hd | hd
    · simp only [initial, Std.HashMap.values_empty] at hd
      contradiction
    · rcases DictStack.mem_frames.mp hd with hd | rfl | rfl
      all_goals contradiction

end Workspace

end PostScript
