import PostScript.Proofs.Object.Parts
import PostScript.Proofs.Sequence.Reflection
import PostScript.Proofs.Sequence.Trace
import PostScript.Proofs.Sequence.Values

/-
  This file bounds the work of reading a payload and the size
  of what is read. Every record that is read costs one unit of
  the budget and gives one object, whatever the offsets of
  arrays are, so blocks that refer to themselves or to each
  other cannot multiply.

  Key definitions include:
    * `Sequence.asked`
    * `Sequence.recordsRead`
    * `Sequence.Spends`

  Main results:
    * `Sequence.traceBlock_spends`
    * `Sequence.tracePayload_spends`
    * `Sequence.readPayload_bounded`
-/

namespace PostScript.Sequence

open Tracing

------------------------------------------------------------
-- Accounts
------------------------------------------------------------

/- Whether an event asks for a record. -/
def Event.isRecord : Event → Bool
  | .record _ => true
  | _ => false

/- The number of records that have been asked for. -/
def asked
    (history : List Moment) : Nat :=
  history.countP (fun m => m.event.isRecord)

/-
  The number of records that have been read: all that were
  asked for, but for the one that was refused, if any.
-/
def recordsRead :
    EStateM.Result Cause NameTable Object × List Moment → Nat
  | (.ok _ _, history) => asked history
  | (.error cause _, history) => asked history - refusals cause

/-
  A run that pays for the records it takes. A value is judged
  together with their number. In a run that fails, only a
  record that was refused is not paid for.
-/
def Spends
    {α : Type}
    (V : α → Nat → Prop)
    (y : Tracing α)
    (s : Traced) : Prop :=
  match y s with
  | .ok v s' =>
      ∃ n, V v n ∧
        asked s'.history = asked s.history + n ∧
        s'.progress.budget + n = s.progress.budget
  | .error cause s' =>
      asked s'.history + s'.progress.budget =
        asked s.history + s.progress.budget + refusals cause

namespace Spends

variable {α β : Type}
variable {V V' : α → Nat → Prop}
variable {W : β → Nat → Prop}
variable {y : Tracing α}
variable {s : Traced}

/- What a run that succeeds has paid. -/
theorem of_ok
    (h : Spends V y s)
    {v : α}
    {s' : Traced}
    (hRun : y s = .ok v s') :
    ∃ n, V v n ∧
      asked s'.history = asked s.history + n ∧
      s'.progress.budget + n = s.progress.budget := by
  unfold Spends at h
  rw [hRun] at h
  exact h

/- What a run that fails has paid. -/
theorem of_error
    (h : Spends V y s)
    {cause : Cause}
    {s' : Traced}
    (hRun : y s = .error cause s') :
    asked s'.history + s'.progress.budget =
      asked s.history + s.progress.budget +
        refusals cause := by
  unfold Spends at h
  rw [hRun] at h
  exact h

/- Runs after each other pay in turn. -/
theorem bind
    {g : α → Tracing β}
    (hFirst : Spends V y s)
    (hNext :
      ∀ v n s', V v n →
        Spends (fun w m => W w (n + m)) (g v) s') :
    Spends W (y >>= g) s := by
  cases hRun : y s with
  | error cause s' =>
      unfold Spends
      rw [bind_of_error hRun]
      exact hFirst.of_error hRun
  | ok v s' =>
      rcases hFirst.of_ok hRun with
        ⟨n, hValue, hAsked, hBudget⟩
      have hThen := hNext v n s' hValue
      unfold Spends at hThen ⊢
      rw [bind_of_ok hRun]
      split at hThen
      next =>
        rcases hThen with ⟨m, hValue', hAsked', hBudget'⟩
        exact ⟨n + m, hValue', by omega, by omega⟩
      next => omega

/- A value that is given costs nothing. -/
theorem pure
    {v : α}
    (hValue : V v 0) :
    Spends V (Pure.pure v) s :=
  ⟨0, hValue, rfl, rfl⟩

/- A failure costs nothing. -/
theorem fail
    {cause : Cause}
    (hCause : refusals cause = 0) :
    Spends V (MonadExcept.throw cause : Tracing α) s := by
  change _ = _ + _ + refusals cause
  rw [hCause]
  rfl

/- Less may be said about a value. -/
theorem imp
    (h : Spends V y s)
    (hValue : ∀ v n, V v n → V' v n) :
    Spends V' y s := by
  unfold Spends at h ⊢
  split at h
  next =>
    rcases h with ⟨n, hHere, hPaid⟩
    exact ⟨n, hValue _ _ hHere, hPaid⟩
  next => exact h

/- Reading that takes no record costs nothing. -/
theorem silently
    {F : α → Progress → Prop}
    {x : Reading α}
    (h : Fielded F x s.progress) :
    Spends (fun v n => n = 0 ∧ ∃ st, F v st) (silently x)
      s := by
  unfold Spends Tracing.silently
  cases hRun : x s.progress with
  | ok v st =>
      rcases h.of_ok hRun with ⟨hSame, hValue⟩
      exact ⟨0, ⟨rfl, st, hValue⟩, rfl, hSame.budget⟩
  | error cause st =>
      rcases h.of_error hRun with ⟨hSame, hCause⟩
      dsimp only
      rw [hSame.budget, hCause, Nat.add_zero]

/- Nor does it if an event other than a record is noted. -/
theorem noting
    {F : α → Progress → Prop}
    {x : Reading α}
    {event : Event}
    (h : Fielded F x s.progress)
    (hEvent : event.isRecord = false) :
    Spends (fun v n => n = 0 ∧ ∃ st, F v st) (noting event x)
      s := by
  refine (bind (silently h) ?_ :
    Spends (fun v n => n = 0 ∧ ∃ st, F v st) _ s)
  rintro v n s' ⟨rfl, hValue⟩
  refine ⟨0, ⟨rfl, hValue⟩, ?_, rfl⟩
  exact List.countP_cons_of_neg
    (fun hRecord => Bool.false_ne_true (hEvent ▸ hRecord))

end Spends

------------------------------------------------------------
-- Fields
------------------------------------------------------------

namespace Payload

variable {p : Payload}
variable {r : Record}
variable {s : Traced}

/- A record is refused if the budget is spent. -/
theorem record_refused
    {st : Progress}
    (offset : Nat)
    (hSpent : st.budget = 0) :
    p.record offset st =
      .error (.record .tooManyObjects 0 0 p.data.size) st := by
  unfold Payload.record
  rw [get_bind, if_pos hSpent]
  rfl

/- A record that is not refused costs one unit. -/
theorem record_pays
    {st : Progress}
    (offset : Nat)
    (hLeft : st.budget ≠ 0) :
    Goes (fun st st' => st'.budget + 1 = st.budget)
      (fun _ _ => True) (p.record offset) st
      (fun cause => refusals cause = 0) := by
  have hPaid : st.budget - 1 + 1 = st.budget :=
    Nat.succ_pred_eq_of_ne_zero hLeft
  unfold Goes Payload.record
  rw [get_bind, if_neg hLeft, set_bind]
  by_cases hOut : p.data.size < offset + recordSize
  · rw [if_pos hOut]
    exact ⟨hPaid, rfl⟩
  · rw [if_neg hOut]
    cases Record.ofBytes p.order
        (p.data.extract offset
          (offset + recordSize)).toList with
    | ok r => exact ⟨hPaid, trivial⟩
    | error first => exact ⟨hPaid, rfl⟩

/- Asking for a record costs one unit, or it is refused. -/
theorem traceRecord_spends
    (offset : Nat) :
    Spends (fun _ n => n = 1) (p.traceRecord offset) s := by
  have hNote :
      note (.record offset) s =
        .ok () ⟨s.progress,
          ⟨.record offset, s.progress.recordsEnd,
            s.progress.textStart⟩ :: s.history⟩ := rfl
  have hAsked :
      asked (⟨.record offset, s.progress.recordsEnd,
        s.progress.textStart⟩ :: s.history) =
          asked s.history + 1 :=
    List.countP_cons_of_pos rfl
  unfold Spends traceRecord
  rw [bind_of_ok hNote]
  unfold Tracing.silently
  dsimp only
  by_cases hSpent : s.progress.budget = 0
  · rw [record_refused offset hSpent]
    dsimp only
    rw [hAsked, refusals]
    omega
  · have hPays := record_pays (p := p) offset hSpent
    cases hRun : p.record offset s.progress with
    | ok r st => exact ⟨1, rfl, hAsked, (hPays.of_ok hRun).1⟩
    | error cause st =>
        rcases hPays.of_error hRun with ⟨hPaid, hCause⟩
        dsimp only
        rw [hAsked, hCause]
        omega

/- Text costs nothing. -/
theorem traceText_spends :
    Spends (fun _ n => n = 0) (p.traceText r) s := by
  unfold traceText
  split
  · exact (Spends.silently text_follows).imp
      (fun _ _ h => h.1)
  · exact (Spends.noting text_follows rfl).imp
      (fun _ _ h => h.1)

/- A block that is reserved costs nothing yet. -/
theorem traceReserve_spends :
    Spends (fun _ n => n = 0) (p.traceReserve r) s := by
  unfold traceReserve
  split
  · exact (Spends.silently reserve_follows).imp
      (fun _ _ h => h.1)
  · exact (Spends.noting reserve_follows rfl).imp
      (fun _ _ h => h.1)

/- A name costs nothing. -/
theorem traceName_spends :
    Spends (fun _ n => n = 0) (p.traceName r) s := by
  unfold traceName
  split
  · exact (Spends.silently name_follows).imp (fun _ _ h => h.1)
  · refine Spends.bind traceText_spends ?_
    rintro bytes n s' rfl
    refine (Spends.silently (internLong_follows bytes)).imp ?_
    rintro _ m ⟨rfl, -⟩
    rfl

end Payload

------------------------------------------------------------
-- Objects
------------------------------------------------------------

variable {ε : Type}
variable [Environment ε]

/-
  An object for which `n` records were taken beside its own
  and that nests at most `levels` deep, if no value of a name
  holds others.
-/
def Weighs
    (env : ε)
    (levels : Nat)
    (o : Object)
    (n : Nat) : Prop :=
  Environment.Flat env → o.total = n ∧ o.height ≤ levels

/- Objects for which `n` records were taken. -/
def AllWeigh
    (env : ε)
    (levels : Nat)
    (es : List Object)
    (n : Nat) : Prop :=
  Environment.Flat env →
    Object.totalFrom 0 es = n ∧
      Object.tallest 0 es + 1 ≤ levels

/- An atom takes no record but its own. -/
theorem weighs_atom
    (env : ε)
    (levels : Nat)
    (v : Atom)
    (a : Attributes) :
    Weighs env levels (.atom v a) 0 :=
  fun _ => ⟨rfl, Nat.zero_le levels⟩

/- So does a number. -/
theorem weighs_real
    (env : ε)
    (levels : Nat)
    (v : Real)
    (executable : Bool) :
    Weighs env levels
      ((Object.real v).withExecutable executable) 0 := by
  unfold Object.real
  split <;> exact weighs_atom env levels _ _

/- An array takes the records of its elements. -/
theorem weighs_makeArray
    {env : ε}
    {levels n : Nat}
    {executable : Bool}
    {es : List Object}
    {o : Object}
    (h : AllWeigh env levels es n)
    (hMake : makeArray env executable es = .ok o) :
    Weighs env levels o n := by
  rw [(makeArray_ok hMake).1]
  intro hFlat
  rcases h hFlat with ⟨hTotal, hHeight⟩
  refine ⟨hTotal, ?_⟩
  rw [Object.height]
  omega

/- What a record stands for is paid for by its blocks. -/
theorem traceContents_spends
    (p : Payload)
    (env : ε)
    {levels : Nat}
    {nested : Nat → Nat → Tracing (List Object)}
    (hNested :
      ∀ offset count s,
        Spends (AllWeigh env levels) (nested offset count) s)
    (r : Record)
    (type : RecordType)
    (s : Traced) :
    Spends (Weighs env levels)
      (traceContents p env nested r type) s := by
  have hPlain :
      ∀ {x : Reading Object},
        Fielded (fun o _ => Weighs env levels o 0) x
          s.progress →
          Spends (Weighs env levels) (silently x) s := by
    intro x h
    refine (Spends.silently h).imp ?_
    rintro o n ⟨rfl, -, hWeighs⟩
    exact hWeighs
  cases type with
  | null | mark =>
      exact hPlain (Goes.bind (Payload.unused_follows true)
        (fun _ _ _ _ => Goes.pure (weighs_atom env _ _ _)))
  | integer =>
      exact hPlain (Goes.bind (Payload.unused_follows false)
        (fun _ _ _ _ => Goes.pure (weighs_atom env _ _ _)))
  | boolean =>
      refine hPlain (Goes.bind (Payload.unused_follows false)
        (fun _ _ _ _ => ?_))
      exact Goes.bind Payload.boolean_follows
        (fun _ _ _ _ => Goes.pure (weighs_atom env _ _ _))
  | real =>
      exact hPlain (Goes.bind Payload.real_follows
        (fun v _ _ _ => Goes.pure (weighs_real env _ v _)))
  | string =>
      refine Spends.bind Payload.traceText_spends ?_
      rintro bytes n s' rfl
      exact Spends.pure (weighs_atom env _ _ _)
  | name =>
      refine Spends.bind Payload.traceName_spends ?_
      rintro name n s' rfl
      exact Spends.pure (weighs_atom env _ _ _)
  | immediateName =>
      refine Spends.bind Payload.traceName_spends ?_
      rintro name n s' rfl
      refine (Spends.silently
        (Payload.binding_follows env name)).imp ?_
      rintro o m ⟨rfl, -, hValue⟩ hFlat
      rcases hFlat o hValue with ⟨hTotal, hHeight⟩
      rw [hTotal, hHeight]
      exact ⟨rfl, Nat.zero_le levels⟩
  | array =>
      refine Spends.bind Payload.traceReserve_spends ?_
      rintro _ n s' rfl
      refine Spends.bind (hNested _ _ s') ?_
      intro elements n s'' hElements
      cases hMake : makeArray env r.executable elements with
      | ok o =>
          refine Spends.pure ?_
          rw [Nat.zero_add, Nat.add_zero]
          exact weighs_makeArray hElements hMake
      | error cause =>
          exact Spends.fail (refusals_of_makeArray hMake)

/- An object is paid for by its record and its blocks. -/
theorem traceObject_spends
    (p : Payload)
    (env : ε)
    {levels : Nat}
    {nested : Nat → Nat → Tracing (List Object)}
    (hNested :
      ∀ offset count s,
        Spends (AllWeigh env levels) (nested offset count) s)
    (offset : Nat)
    (s : Traced) :
    Spends (fun o n => ∃ m, n = 1 + m ∧ Weighs env levels o m)
      (traceObject p env nested offset) s := by
  refine Spends.bind (Payload.traceRecord_spends offset) ?_
  rintro r n s' rfl
  cases RecordType.ofCode? r.type with
  | none =>
      exact (Spends.silently (F := fun _ _ => False)
        (Goes.fail rfl)).imp (fun _ _ h => h.2.elim nofun)
  | some type =>
      exact (traceContents_spends p env hNested r type s').imp
        (fun o m h => ⟨m, rfl, h⟩)

/-
  Objects that are read one after another are paid for one
  after another, by induction on their number.
-/
theorem traceObjectsAfter_spends
    (env : ε)
    {levels : Nat}
    {read : Nat → Tracing Object}
    (hRead :
      ∀ offset s,
        Spends
          (fun o n => ∃ m, n = 1 + m ∧ Weighs env levels o m)
          (read offset) s)
    (done : Array Object)
    (n offset : Nat)
    (s : Traced) :
    Spends
      (fun es m => Environment.Flat env →
        ∃ fs, es = done.toList ++ fs ∧
          Object.totalFrom 0 fs = m ∧
          Object.tallest 0 fs ≤ levels)
      (traceObjectsAfter read done n offset) s := by
  induction n generalizing done offset s with
  | zero =>
      exact Spends.pure (fun _ =>
        ⟨[], (List.append_nil _).symm, rfl, Nat.zero_le _⟩)
  | succ n ih =>
      refine Spends.bind (hRead offset s) ?_
      rintro o _ s' ⟨m, rfl, hWeighs⟩
      refine (ih _ _ s').imp ?_
      intro es k hRest hFlat
      rcases hWeighs hFlat with ⟨hTotal, hHeight⟩
      rcases hRest hFlat with ⟨fs, rfl, hTotals, hTallest⟩
      refine ⟨o :: fs, ?_, ?_, ?_⟩
      · rw [Array.toList_push, List.append_assoc,
          List.singleton_append]
      · rw [Object.totalFrom_cons, hTotal, hTotals]
      · rw [Object.tallest_cons]
        exact Nat.max_le.mpr ⟨hHeight, hTallest⟩

/-
  A block is paid for, by induction on how deep arrays may
  still nest. Where they may not, there is no block.
-/
theorem traceBlock_spends
    (p : Payload)
    (env : ε)
    (levels offset count : Nat)
    (s : Traced) :
    Spends (AllWeigh env levels)
      (traceBlock p env levels offset count) s := by
  induction levels generalizing offset count s with
  | zero =>
      exact (Spends.silently (F := fun _ _ => False)
        (Goes.fail rfl)).imp (fun _ _ h => h.2.elim nofun)
  | succ levels ih =>
      refine (traceObjectsAfter_spends env
        (traceObject_spends p env ih) #[] count offset
          s).imp ?_
      intro es n hAll hFlat
      rcases hAll hFlat with ⟨fs, rfl, hTotal, hTallest⟩
      exact ⟨hTotal, Nat.succ_le_succ hTallest⟩

------------------------------------------------------------
-- Payloads
------------------------------------------------------------

/- The history of a run stays when it is finished. -/
theorem recordsRead_finish_le
    (env : ε)
    {result : EStateM.Result Cause Traced (List Object)}
    {n : Nat}
    (hOk :
      ∀ es s, result = .ok es s → asked s.history ≤ n)
    (hError :
      ∀ cause s, result = .error cause s →
        asked s.history ≤ n + refusals cause) :
    recordsRead (Traced.finish env result) ≤ n := by
  cases result with
  | ok es s =>
      have hAsked := hOk es s rfl
      unfold Traced.finish
      dsimp only
      split
      · exact hAsked
      · exact Nat.le_trans (Nat.sub_le _ _) hAsked
  | error cause s =>
      exact Nat.sub_le_of_le_add (hError cause s rfl)

/-
  Reading a payload takes no more records than fit into it. If
  values of names hold no objects, the array that comes of it
  holds no more objects than that and nests no deeper than it
  may.
-/
theorem tracePayload_spends
    (env : ε)
    (h : Header)
    (data : Bytes)
    (names : NameTable) :
    recordsRead (tracePayload env h data names) ≤
        data.size / recordSize ∧
      ∀ o names',
        (tracePayload env h data names).1 = .ok o names' →
          Environment.Flat env →
            o.total ≤ data.size / recordSize ∧
              o.height ≤ maxNesting + 1 := by
  have hSpends :=
    traceBlock_spends ⟨data, h.format.order⟩ env
      (maxNesting + 1) 0 h.count.toNat
      (Traced.start names h.count.toNat data.size)
  have hNone :
      asked (Traced.start names h.count.toNat
        data.size).history = 0 := rfl
  have hAll :
      (Traced.start names h.count.toNat
        data.size).progress.budget =
          data.size / recordSize := rfl
  unfold tracePayload
  dsimp only
  split
  next => exact ⟨Nat.zero_le _, nofun⟩
  next =>
    constructor
    · apply recordsRead_finish_le env
      · intro es s hRun
        rcases hSpends.of_ok hRun with ⟨n, -, hAsked, hPaid⟩
        omega
      · intro cause s hRun
        have hAsked := hSpends.of_error hRun
        omega
    · intro o names' hFinish hFlat
      unfold Traced.finish at hFinish
      split at hFinish
      next es s hRun =>
        rcases hSpends.of_ok hRun with
          ⟨n, hWeighs, hAsked, hPaid⟩
        rcases hWeighs hFlat with ⟨hTotal, hTallest⟩
        split at hFinish
        next made hMake =>
          cases hFinish
          rw [(makeArray_ok hMake).1, Object.total,
            Object.height]
          omega
        next => contradiction
      next => contradiction

/-
  However its arrays refer to each other, reading a payload
  takes no more records than fit into it. If it succeeds, then
  the array that it gives, with the null object in the place
  of every value of a name, is what the same payload gives
  where the values of names are sealed; this holds no more
  objects than fit into the payload, and its elements nest no
  deeper than arrays may.
-/
theorem readPayload_bounded
    (env : ε)
    (h : Header)
    (data : Bytes)
    (names : NameTable) :
    (tracePayload env h data names).1 =
        readPayload env h data names ∧
      recordsRead (tracePayload env h data names) ≤
        data.size / recordSize ∧
      ∀ o names',
        readPayload env h data names = .ok o names' →
          ∃ es a,
            readPayload (Environment.Sealed.mk env) h data
                names = .ok (.array es a) names' ∧
              Object.Completes env (.array es a) o ∧
              Object.totalFrom 0 es ≤
                data.size / recordSize ∧
              Object.tallest 0 es ≤ maxNesting := by
  refine ⟨tracePayload_fst env h data names,
    (tracePayload_spends env h data names).1, ?_⟩
  intro o names' hRead
  rcases readPayload_reflected
      (Environment.reflects_sealed env) h data _ _ _ hRead with
    ⟨d, hSealed, hCompletes⟩
  rcases readPayload_array hSealed with ⟨es, rfl⟩
  have hBounds :=
    (tracePayload_spends (Environment.Sealed.mk env) h data
      names).2
  rw [tracePayload_fst] at hBounds
  rcases hBounds _ _ hSealed (flat_sealed env) with
    ⟨hTotal, hHeight⟩
  rw [Object.height] at hHeight
  exact ⟨es, _, hSealed, hCompletes, hTotal, by omega⟩

/-
  Two arrays that share their only element, which stands once:
  its record is read twice.
-/
theorem readPayload_bounded_shared :
    ∃ o names',
      readPayload () ⟨⟨.little, .native⟩, 2, 37, false⟩
          #[9, 0, 1, 0, 16, 0, 0, 0, 9, 0, 1, 0, 16, 0, 0, 0,
            5, 0, 1, 0, 32, 0, 0, 0, 0, 0, 0, 0, 0, 0, 0, 0,
            104] NameTable.initial = .ok o names' ∧
      ∃ es a,
        Object.Completes () (.array es a) o ∧
          Object.totalFrom 0 es ≤ 4 ∧
          Object.tallest 0 es ≤ maxNesting := by
  have hOk :
      (match readPayload () ⟨⟨.little, .native⟩, 2, 37, false⟩
          #[9, 0, 1, 0, 16, 0, 0, 0, 9, 0, 1, 0, 16, 0, 0, 0,
            5, 0, 1, 0, 32, 0, 0, 0, 0, 0, 0, 0, 0, 0, 0, 0,
            104] NameTable.initial with
        | .ok _ _ => true
        | .error _ _ => false) = true := by
    decide +kernel
  cases hRead :
      readPayload () ⟨⟨.little, .native⟩, 2, 37, false⟩
        #[9, 0, 1, 0, 16, 0, 0, 0, 9, 0, 1, 0, 16, 0, 0, 0,
          5, 0, 1, 0, 32, 0, 0, 0, 0, 0, 0, 0, 0, 0, 0, 0,
          104] NameTable.initial with
  | error cause names' =>
      rw [hRead] at hOk
      contradiction
  | ok o names' =>
      rcases (readPayload_bounded () _ _ _).2.2 _ _ hRead with
        ⟨es, a, -, hCompletes, hTotal, hTallest⟩
      exact ⟨o, names', rfl, es, a, hCompletes, hTotal,
        hTallest⟩

/- An array that is its own element is read once. -/
example :
    recordsRead (tracePayload ()
      ⟨⟨.little, .native⟩, 1, 12, false⟩
      #[9, 0, 1, 0, 0, 0, 0, 0] NameTable.initial) = 1 := by
  decide +kernel

end PostScript.Sequence
