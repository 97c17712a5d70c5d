import PostScript.Proofs.Scanner.Names
import PostScript.Proofs.Workspace.Quiet
import PostScript.Workspace.Action

/-
  This file shows that the parts of commands are made of
  quiet steps, but for those that forget names, and what is
  known of the names and objects that they give.

  Key definitions include:
    * `Workspace.Grown`

  Main results:
    * `Action.name_goes`
    * `Action.make_goes`
    * `Action.scanning_goes`
    * `Action.decoding_goes`
-/

namespace PostScript

------------------------------------------------------------
-- Growing Tables
------------------------------------------------------------

namespace Workspace

/- Nothing has changed but the table, which has grown. -/
def Grown
    (w w' : Workspace) : Prop :=
  ∃ t, Reads w.names w.scope t w.scope ∧
    w' = { w with names := t }

namespace Grown

variable {w w' : Workspace}

/- A table may grow by nothing. -/
theorem refl
    (w : Workspace) :
    Grown w w :=
  ⟨w.names, .refl, rfl⟩

/- A table grows quietly. -/
theorem quietSteps
    (h : Grown w w') :
    QuietSteps w w' := by
  rcases h with ⟨t, hReads, rfl⟩
  exact .single (.read hReads)

/- Names stay in a table that grows. -/
theorem holds
    (h : Grown w w')
    {n : Name}
    (hn : w.names.Holds n) :
    w'.names.Holds n := by
  rcases h with ⟨t, hReads, rfl⟩
  exact hReads.holds hn

end Grown

end Workspace

namespace Action

open Workspace

variable {w : Workspace}
variable {α : Type}

------------------------------------------------------------
-- Finding
------------------------------------------------------------

/- What is found is what was there. -/
theorem expect_goes
    (what : Missing)
    (found : Option α) :
    Goes QuietSteps (fun v w' => w' = w ∧ found = some v)
      (expect what found) w := by
  cases found with
  | none => exact Goes.throw _
  | some v => exact Goes.pure ⟨rfl, rfl⟩

/- A handle that is found is kept. -/
theorem handle_goes
    (label : String) :
    Goes QuietSteps
      (fun n w' => w' = w ∧ n ∈ w.handles.values)
      (handle label) w := by
  unfold handle
  apply Goes.get_bind
  refine (expect_goes _ _).imp ?_
  rintro n w' - ⟨rfl, hFound⟩
  exact ⟨rfl, Shelf.mem_values_of_get? hFound⟩

/- A dictionary that is found is kept. -/
theorem dict_goes
    (label : String) :
    Goes QuietSteps
      (fun d w' => w' = w ∧ d ∈ w.dicts.values)
      (dict label) w := by
  unfold dict
  apply Goes.get_bind
  refine (expect_goes _ _).imp ?_
  rintro d w' - ⟨rfl, hFound⟩
  exact ⟨rfl, Shelf.mem_values_of_get? hFound⟩

/- Finding a source changes nothing. -/
theorem source_goes
    (label : String) :
    Goes QuietSteps (fun _ w' => w' = w) (source label) w := by
  unfold source
  apply Goes.get_bind
  exact (expect_goes _ _).imp (fun _ _ _ h => h.1)

/- Telling about a name changes nothing. -/
theorem mention_goes
    (n : Name) :
    Goes QuietSteps (fun _ w' => w' = w) (mention n) w := by
  unfold mention
  apply Goes.get_bind
  exact Goes.pure rfl

/- Telling the entries of a dictionary changes nothing. -/
theorem listing_goes
    (d : Dictionary) :
    Goes QuietSteps (fun _ w' => w' = w) (listing d) w := by
  unfold listing
  apply Goes.get_bind
  exact Goes.pure rfl

/- A result that is there changes nothing. -/
theorem ofExcept_goes
    (x : Except Cause α) :
    Goes QuietSteps (fun _ w' => w' = w) (ofExcept x) w := by
  cases x with
  | ok v => exact Goes.pure rfl
  | error cause => exact Goes.throw _

------------------------------------------------------------
-- Making
------------------------------------------------------------

/- Work on the table alone lets it grow. -/
theorem onNames_goes
    {x : EStateM Cause NameTable α}
    {V : α → NameTable → Prop}
    (h : Goes (Sequence.TableRead w.scope) V x w.names) :
    Goes QuietSteps (fun v w' => Grown w w' ∧ V v w'.names)
      (onNames x) w := by
  have hGrown :
      ∀ t, Reads w.names w.scope t w.scope →
        Grown w { w with names := t } :=
    fun t hReads => ⟨t, hReads, rfl⟩
  unfold Goes onNames
  dsimp only
  cases hRun : x w.names with
  | ok v t =>
      rcases h.of_ok hRun with ⟨hReads, hValue⟩
      exact ⟨(hGrown t hReads).quietSteps, hGrown t hReads,
        hValue⟩
  | error cause t =>
      exact ⟨(hGrown t (h.of_error hRun).1).quietSteps,
        trivial⟩

/- A name that is made is in the table. -/
theorem intern_goes
    (limit : Nat)
    (f : NameTable → Bytes → Except Cause Name × NameTable)
    (hf : ∀ t bytes, f t bytes = t.internWithin limit bytes)
    (bytes : Bytes) :
    Goes QuietSteps
      (fun n w' => Grown w w' ∧ w'.names.Holds n)
      (intern f bytes) w := by
  unfold intern
  apply onNames_goes (V := fun n t => t.Holds n)
  have hReads :
      Reads w.names w.scope
        (w.names.internWithin limit bytes).2 w.scope :=
    .intern limit bytes .refl
  unfold Goes
  dsimp only
  rw [hf]
  cases hIntern : w.names.internWithin limit bytes with
  | mk result t =>
      rw [hIntern] at hReads
      cases result with
      | ok n =>
          exact ⟨hReads,
            (NameTable.holds_of_internWithin hIntern).1⟩
      | error cause => exact ⟨hReads, trivial⟩

/- The name that is meant is in the table. -/
theorem name_goes
    (h : w.Coherent)
    (key : NameRef) :
    Goes QuietSteps
      (fun n w' => Grown w w' ∧ w'.names.Holds n)
      (name key) w := by
  cases key with
  | handle label =>
      refine (handle_goes label).imp ?_
      rintro n w' - ⟨rfl, hn⟩
      exact ⟨.refl w', h.handles n hn⟩
  | bytes bytes =>
      exact intern_goes maxNameLength _ (fun _ _ => rfl) bytes

end Action

------------------------------------------------------------
-- Recipes
------------------------------------------------------------

namespace Recipe

variable {s : Scope}
variable {held : String → Option Object}

/- Making objects lets the table grow. -/
def Makes
    (s : Scope)
    (t t' : NameTable) : Prop :=
  Reads t s t' s

instance : Onward (Makes s) where
  refl _ := .refl
  trans := Reads.trans

/- Attributes make no names known or unknown. -/
theorem knows_apply
    {t : NameTable}
    {o : Object}
    (ho : t.Knows o)
    (f : Finish) :
    t.Knows (f.apply o) := by
  intro n hn
  unfold Finish.apply Object.withAccess Object.withExecutable
    at hn
  rw [Object.names_withAttrs, Object.names_withAttrs] at hn
  exact ho n hn

/- An object inside arrays is known if it was. -/
theorem knows_wrap
    {t : NameTable}
    (attrs : Attributes)
    (n : Nat)
    {o : Object}
    (ho : t.Knows o) :
    t.Knows (wrap attrs n o) := by
  induction n generalizing o with
  | zero => exact ho
  | succ n ih =>
      apply ih
      apply NameTable.knows_array
      intro e he
      rw [List.mem_singleton.mp he]
      exact ho

/- A name that is made for an object is in the table. -/
theorem makeName_goes
    (bytes : Bytes)
    {t : NameTable} :
    Goes (Makes s) (fun n t => t.Holds n) (makeName bytes)
      t := by
  unfold makeName
  apply Goes.get_bind
  have hReads : Reads t s (t.internLong bytes).2 s :=
    .intern maxLongNameLength bytes .refl
  split
  next n t' hIntern =>
    rw [hIntern] at hReads
    exact Goes.set_bind hReads
      (Goes.pure (NameTable.holds_of_internWithin hIntern).1)
  next cause t' hIntern =>
    rw [hIntern] at hReads
    exact Goes.set_bind hReads (Goes.throw _)

/-
  An object that is made is known, if the objects that are
  held are.
-/
mutual

theorem make_goes
    {t : NameTable} :
    ∀ (r : Recipe),
      (∀ id o, held id = some o → t.Knows o) →
        Goes (Makes s) (fun o t => t.Knows o) (make held r) t
  | .atom v f => by
      intro _
      refine Goes.pure (knows_apply ?_ f)
      apply NameTable.knows_of_names_nil
      cases v <;> rfl
  | .number n f => by
      intro _
      exact Goes.pure
        (knows_apply (BinaryToken.knows_ofNumber t n) f)
  | .name bytes f => by
      intro _
      exact Goes.bind (makeName_goes bytes)
        (fun _ _ _ hn =>
          Goes.pure
            (knows_apply (NameTable.knows_name hn _) f))
  | .string bytes a f => by
      intro _
      exact Goes.pure
        (knows_apply (NameTable.knows_of_names_nil rfl) f)
  | .array items a f => by
      intro hHeld
      exact Goes.bind
        (makeItems_goes items hHeld (fun e he => by simp at he))
        (fun _ _ _ hKnown =>
          Goes.pure
            (knows_apply (NameTable.knows_array hKnown a) f))
  | .nest inner n a f => by
      intro hHeld
      exact Goes.bind (make_goes inner hHeld)
        (fun _ _ _ hKnown =>
          Goes.pure (knows_apply (knows_wrap a n hKnown) f))
  | .held id => by
      intro hHeld
      unfold make
      split
      next o hFound => exact Goes.pure (hHeld id o hFound)
      next => exact Goes.throw _

theorem makeItems_goes
    {t : NameTable}
    {done : Array Object} :
    ∀ (items : List (Recipe × Nat)),
      (∀ id o, held id = some o → t.Knows o) →
      (∀ e ∈ done.toList, t.Knows e) →
        Goes (Makes s) (fun es t => ∀ e ∈ es, t.Knows e)
          (makeItems held done items) t
  | [] => by
      intro _ hDone
      exact Goes.pure hDone
  | (r, n) :: items => by
      intro hHeld hDone
      refine Goes.bind (make_goes r hHeld) ?_
      intro o t' hReads hKnown
      apply makeItems_goes items
        (fun id o' hFound => hReads.knows (hHeld id o' hFound))
      intro e he
      rw [Array.toList_append, List.mem_append] at he
      rcases he with he | he
      · exact hReads.knows (hDone e he)
      · rw [Array.toList_replicate] at he
        rw [List.eq_of_mem_replicate he]
        exact hKnown

end

end Recipe

------------------------------------------------------------
-- Keeping
------------------------------------------------------------

namespace Action

open Workspace

variable {w : Workspace}

/- The object that is made is known. -/
theorem make_goes
    (h : w.Coherent)
    (r : Recipe) :
    Goes QuietSteps
      (fun o w' => Grown w w' ∧ w'.names.Knows o)
      (make r) w := by
  have hHeld :
      ∀ id o, w.objects.get? id = some o →
        w.names.Knows o :=
    fun id o hFound =>
      h.objects o (Shelf.mem_values_of_get? hFound)
  have hMake := Recipe.make_goes (s := w.scope) r hHeld
  have hGrown :
      ∀ t, Reads w.names w.scope t w.scope →
        Grown w { w with names := t } :=
    fun t hReads => ⟨t, hReads, rfl⟩
  unfold Goes make
  cases hRun : r.make w.objects.get? w.names with
  | ok o t =>
      rcases hMake.of_ok hRun with ⟨hReads, hKnown⟩
      exact ⟨(hGrown t hReads).quietSteps, hGrown t hReads,
        hKnown⟩
  | error refusal t =>
      have hReads := (hMake.of_error hRun).1
      cases refusal <;>
        exact ⟨(hGrown t hReads).quietSteps, trivial⟩

/- A name may be kept if it is in the table. -/
theorem keepName_goes
    (keep : Option String)
    {n : Name}
    (hn : w.names.Holds n) :
    Goes QuietSteps (fun _ w' => w'.names = w.names)
      (keepName keep n) w := by
  cases keep with
  | none => exact Goes.pure rfl
  | some label =>
      refine ⟨.single (.aside (.handles _ ?_)), rfl⟩
      intro m hm
      rcases Shelf.mem_values_insert hm with hm | rfl
      · exact .inl hm
      · exact .inr hn

/- An object may be kept if it is known. -/
theorem keepObject_goes
    (keep : Option String)
    {o : Object}
    (ho : w.names.Knows o) :
    Goes QuietSteps (fun _ _ => True) (keepObject keep o)
      w := by
  cases keep with
  | none => exact Goes.pure trivial
  | some label =>
      refine ⟨.single (.aside (.objects _ ?_)), trivial⟩
      intro o' ho'
      rcases Shelf.mem_values_insert ho' with ho' | rfl
      · exact .inl ho'
      · exact .inr ho

/- So may several objects. -/
theorem keepObjects_goes
    (keep : Option String)
    {os : List Object}
    (hos : ∀ o ∈ os, w.names.Knows o) :
    Goes QuietSteps (fun _ _ => True) (keepObjects keep os)
      w := by
  cases keep with
  | none => exact Goes.pure trivial
  | some label =>
      refine ⟨.single (.aside (.objects _ ?_)), trivial⟩
      intro o ho
      rcases Shelf.mem_values_insertNumbered ho with ho | ho
      · exact .inl ho
      · exact .inr (hos o ho)

/- Answering with a name keeps at most that name. -/
theorem answerName_goes
    (keep : Option String)
    {found : Option Name}
    (hFound : ∀ n, found = some n → w.names.Holds n) :
    Goes QuietSteps (fun _ _ => True) (answerName keep found)
      w := by
  unfold answerName
  cases found with
  | none => exact Goes.get_bind (Goes.pure trivial)
  | some n =>
      refine Goes.bind (keepName_goes keep (hFound n rfl)) ?_
      intro _ _ _ _
      refine Goes.bind (mention_goes n) ?_
      intro _ _ _ _
      exact Goes.get_bind (Goes.pure trivial)

/- Dropping something is quiet if taking it away is. -/
theorem dropping_goes
    {α : Type}
    (shelf : Workspace → Shelf α)
    (replace : Workspace → Shelf α → Workspace)
    (label : String)
    (hStep :
      QuietStep w (replace w ((shelf w).erase label))) :
    Goes QuietSteps (fun _ _ => True)
      (dropping shelf replace label) w := by
  unfold dropping
  apply Goes.get_bind
  exact Goes.set_bind (.single hStep) (Goes.pure trivial)

/- Forgetting names is a step if it replaces the table so. -/
theorem forgetNames_goes
    (f : NameTable → (Name → Bool) → (SlotId → Bool) →
      NameTable)
    (hStep : Step w { w with
      names := f w.names w.refers w.scope.heap.isLive }) :
    Goes Steps (fun _ _ => True) (forgetNames f) w := by
  unfold forgetNames
  apply Goes.get_bind
  exact Goes.set_bind (.single hStep) (Goes.pure trivial)

/- Keeping a source is quiet. -/
theorem keepSource_goes
    (label : String)
    (src : Source)
    (lastByte : Option UInt8) :
    Goes QuietSteps (fun _ w' => w'.names = w.names)
      (keepSource label src lastByte) w :=
  ⟨.single (.aside (.sources _)), rfl⟩

------------------------------------------------------------
-- Reading
------------------------------------------------------------

/- Scanning is quiet if the scanner only reads. -/
theorem scanning_goes
    {σ α : Type}
    [ByteSource σ]
    (source : σ)
    {f : ScanSettings → Scanner.Rest σ Scope →
      α × Scanner.Rest σ Scope}
    {V : α → NameTable → Prop}
    (hf :
      Reads w.names w.scope
          (f w.settings ⟨source, w.names, w.scope⟩).2.names
          (f w.settings ⟨source, w.names, w.scope⟩).2.env ∧
        V (f w.settings ⟨source, w.names, w.scope⟩).1
          (f w.settings
            ⟨source, w.names, w.scope⟩).2.names) :
    Goes QuietSteps (fun r w' => V r.1 w'.names)
      (scanning source f) w := by
  unfold scanning
  apply Goes.get_bind
  exact Goes.set_bind (.single (.read hf.1))
    (Goes.pure hf.2)

/- Decoding is quiet if the decoder only reads. -/
theorem decoding_goes
    (keep : Option String)
    {x : Scope → EStateM Cause NameTable (Object × Nat)}
    (hx :
      Goes (Sequence.TableRead w.scope)
        (fun r t => t.Knows r.1) (x w.scope) w.names) :
    Goes QuietSteps (fun _ _ => True) (decoding keep x)
      w := by
  unfold decoding
  apply Goes.get_bind
  refine Goes.bind (onNames_goes hx) ?_
  rintro ⟨o, used⟩ w' - ⟨-, hKnown⟩
  refine Goes.bind (keepObject_goes keep hKnown) ?_
  intro _ _ _ _
  exact Goes.get_bind (Goes.pure trivial)

end Action

end PostScript
