import PostScript.Proofs.Scanner.Manner
import PostScript.Proofs.Sequence.Names

/-
  This file shows that scanning program text makes and recalls
  names, hears comments and does nothing else to the table of
  names and the scope, and that all names in the objects it
  gives are in the table.

  Key definitions include:
    * `Scanner.knowing`

  Main results:
    * `BinaryToken.object_goes`
    * `Scanner.scan_yields`
    * `Scanner.transcript_yields`
-/

namespace PostScript

------------------------------------------------------------
-- Binary Tokens
------------------------------------------------------------

namespace BinaryToken

open Sequence

variable {env : Scope}
variable {t : NameTable}

/- A number holds no names. -/
theorem knows_ofNumber
    (t : NameTable)
    (n : Number) :
    t.Knows (Object.ofNumber n) := by
  apply NameTable.knows_of_names_nil
  rcases Object.ofNumber_cases n with
    ⟨v, -, h⟩ | h | ⟨v, -, -, h⟩ <;>
    rw [h] <;> rfl

/- A result that is given leaves the names alone. -/
theorem given_goes
    {x : Except Cause Object}
    (h : ∀ o, x = .ok o → t.Knows o) :
    Goes (TableRead env) (fun o t => t.Knows o) (given x)
      t := by
  cases x with
  | ok o => exact Goes.pure (h o rfl)
  | error cause => exact Goes.throw _

/- A system name is known. -/
theorem systemNameObject_goes
    (index : Nat)
    (executable : Bool)
    (hGrounded : env.Grounded t) :
    Goes (TableRead env) (fun o t => t.Knows o)
      (systemNameObject index executable) t := by
  unfold systemNameObject
  apply Goes.get_bind
  split
  next n hSystem =>
    exact Goes.pure (NameTable.knows_name
      (hGrounded.holds_systemName hSystem) _)
  next => exact Goes.throw _

/- The object of a token is known. -/
theorem object_goes
    (token : BinaryToken)
    (hGrounded : env.Grounded t) :
    Goes (TableRead env) (fun o t => t.Knows o)
      (token.object env) t := by
  cases token with
  | sequence h payload =>
      exact readPayload_goes h payload hGrounded
  | integer v =>
      exact Goes.pure (NameTable.knows_of_names_nil rfl)
  | number f bytes =>
      apply given_goes
      intro o h
      cases hRead : f.read bytes.toList with
      | error cause =>
          rw [hRead] at h
          contradiction
      | ok n =>
          rw [hRead] at h
          cases h
          exact knows_ofNumber t n
  | real bits =>
      apply given_goes
      intro o h
      cases hRead : NumberFormat.finiteNumber bits with
      | error cause =>
          rw [hRead] at h
          contradiction
      | ok n =>
          rw [hRead] at h
          cases h
          exact knows_ofNumber t n
  | boolean v =>
      unfold object
      dsimp only
      split
      · exact Goes.pure (NameTable.knows_of_names_nil rfl)
      · split
        · exact Goes.pure (NameTable.knows_of_names_nil rfl)
        · exact Goes.throw _
  | string bytes =>
      exact Goes.pure (NameTable.knows_of_names_nil rfl)
  | systemName index executable =>
      exact systemNameObject_goes index executable hGrounded
  | userName index => exact Goes.throw _
  | numbers f bytes =>
      apply given_goes
      intro o h
      unfold numbersObject at h
      split at h
      next ns _ =>
        refine NameTable.knows_makeArray ?_ h
        intro e he
        rcases List.mem_map.mp he with ⟨n, -, rfl⟩
        exact knows_ofNumber t n
      next => contradiction

/- The object that is decoded is known. -/
theorem decode_goes
    (data : Bytes)
    (hGrounded : env.Grounded t) :
    Goes (TableRead env) (fun r t => t.Knows r.1)
      (decode env data) t := by
  unfold decode
  split
  · split
    · exact Goes.throw _
    · split
      · exact Goes.throw _
      · exact Goes.bind (object_goes _ hGrounded)
          (fun _ _ _ hKnown => Goes.pure hKnown)
  · exact Goes.throw _

end BinaryToken

------------------------------------------------------------
-- Programs
------------------------------------------------------------

namespace Scanner

/- Objects are known once they are scanned. -/
def knowing : Manner Scope where
  changes := Reads
  starts t s := s.Grounded t
  gives t _ o := t.Knows o
  refl := .refl
  trans := Reads.trans
  starts_of_changes := Reads.grounded
  gives_of_changes hReads h := hReads.knows h
  comment text := .comment text .refl
  intern bytes := .intern maxNameLength bytes .refl
  load _ hHolds := .lookUp hHolds .refl
  name executable hMade :=
    NameTable.knows_name
      (NameTable.holds_of_internWithin hMade).1 _
  value {t t' s n v} hGrounded hHolds hFound := by
    have hKnows : t.Knows v :=
      hGrounded.knows_load (by rw [hFound])
    have hReads : Reads t s (t.load s n).2 s :=
      .lookUp hHolds .refl
    rw [hFound] at hReads
    exact hReads.knows hKnows
  string _ := NameTable.knows_of_names_nil rfl
  number _ := BinaryToken.knows_ofNumber _ _
  token hGrounded _ := BinaryToken.object_goes _ hGrounded
  procedure hElements hMake :=
    NameTable.knows_makeArray hElements hMake

variable {σ : Type}
variable [ByteSource σ]

/- The object that a call gives is known. -/
theorem scan_yields
    (cfg : ScanSettings)
    (r : Rest σ Scope)
    (hGrounded : r.env.Grounded r.names) :
    Reads r.names r.env
        (scan cfg r).2.names (scan cfg r).2.env ∧
      ∀ o, (scan cfg r).1 = .ok (some o) →
        (scan cfg r).2.names.Knows o :=
  knowing.scan_yields cfg r hGrounded

/- The objects of replies are known. -/
abbrev KnownReplies
    (rs : List (Reply σ))
    (t : NameTable) : Prop :=
  ∀ r ∈ rs, ∀ o, r.result = .ok (some o) → t.Knows o

omit [ByteSource σ] in
/- One more reply is known. -/
theorem knownReplies_push
    {done : Array (Reply σ)}
    {t t' : NameTable}
    {s s' : Scope}
    (hDone : KnownReplies done.toList t)
    (hReads : Reads t s t' s')
    {r : Reply σ}
    (hr : ∀ o, r.result = .ok (some o) → t'.Knows o) :
    KnownReplies (done.push r).toList t' := by
  intro r' hr' o ho
  rw [Array.toList_push, List.mem_append,
    List.mem_singleton] at hr'
  rcases hr' with hr' | rfl
  · exact hReads.knows (hDone r' hr' o ho)
  · exact hr o ho

/- The replies of repeated calls are known. -/
theorem transcriptAfter_yields
    (cfg : ScanSettings)
    (done : Array (Reply σ))
    (failures : Nat)
    (r : Rest σ Scope)
    (hGrounded : r.env.Grounded r.names)
    (hDone : KnownReplies done.toList r.names) :
    Reads r.names r.env
        (transcriptAfter cfg done failures r).2.names
        (transcriptAfter cfg done failures r).2.env ∧
      KnownReplies (transcriptAfter cfg done failures r).1
        (transcriptAfter cfg done failures r).2.names := by
  fun_induction transcriptAfter cfg done failures r with
  | case1 done failures r r' hScan =>
      have hCall := scan_yields cfg r hGrounded
      rw [hScan] at hCall
      exact ⟨hCall.1, knownReplies_push hDone hCall.1
        (fun o ho => nomatch ho)⟩
  | case2 done failures r o r' hScan ih =>
      have hCall := scan_yields cfg r hGrounded
      rw [hScan] at hCall
      have hRest := ih (hCall.1.grounded hGrounded)
        (knownReplies_push hDone hCall.1
          (fun o' ho' => by
            cases ho'
            exact hCall.2 o rfl))
      exact ⟨hCall.1.trans hRest.1, hRest.2⟩
  | case3 done r e r' hScan done' =>
      have hCall := scan_yields cfg r hGrounded
      rw [hScan] at hCall
      exact ⟨hCall.1, knownReplies_push hDone hCall.1
        (fun o ho => nomatch ho)⟩
  | case4 done r e r' hScan done' n ih =>
      have hCall := scan_yields cfg r hGrounded
      rw [hScan] at hCall
      have hRest := ih (hCall.1.grounded hGrounded)
        (knownReplies_push hDone hCall.1
          (fun o ho => nomatch ho))
      exact ⟨hCall.1.trans hRest.1, hRest.2⟩

/- The same for all calls on one source. -/
theorem transcript_yields
    (cfg : ScanSettings)
    (failures : Nat)
    (r : Rest σ Scope)
    (hGrounded : r.env.Grounded r.names) :
    Reads r.names r.env
        (transcript cfg failures r).2.names
        (transcript cfg failures r).2.env ∧
      KnownReplies (transcript cfg failures r).1
        (transcript cfg failures r).2.names :=
  transcriptAfter_yields cfg #[] (failures - 1) r hGrounded
    (fun r hr => by simp at hr)

end Scanner

end PostScript
