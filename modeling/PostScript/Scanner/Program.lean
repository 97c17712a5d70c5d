import PostScript.Scanner.Lexeme

/-
  This file reads objects from program text. Procedures are
  built from the pieces between their braces, and every call
  reads one object.

  Key definitions include:
    * `OpenProcedures`
    * `Scanner.place`
    * `Scanner.readObject`
    * `Scanner.scan`
    * `Scanner.objects`
    * `Scanner.transcript`

  Correctness is proven by:
    * `Scanner.remaining_scan_lt`
-/

namespace PostScript

/-
  The elements read so far of the procedures that are open,
  innermost first.
-/
abbrev OpenProcedures : Type :=
  List (Array Object)

namespace Scanner

variable {σ ε : Type}
variable [ByteSource σ]
variable [Environment ε]

open ByteSource

------------------------------------------------------------
-- Single Objects
------------------------------------------------------------

/-
  What a piece leads to: the answer of the call, or more
  pieces to be read.
-/
inductive Step where
  | answer (r : Except Cause (Option Object))
  | more (outer : OpenProcedures)

/-
  Put a finished object into the innermost open procedure. If
  there is none, it is the answer.
-/
def place
    (cfg : ScanSettings)
    (outer : OpenProcedures)
    (o : Object) : Step :=
  match outer with
  | [] => .answer (.ok (some o))
  | elements :: rest =>
      if elements.size < cfg.arrayLength then
        .more (elements.push o :: rest)
      else
        .answer (.error .procedureTooLong)

/- Open a procedure inside those already open. -/
def openProcedure
    (cfg : ScanSettings)
    (outer : OpenProcedures) : Step :=
  if outer.length < cfg.procedureDepth then
    .more (#[] :: outer)
  else
    .answer (.error .procedureTooDeep)

/- Close the innermost procedure. -/
def closeProcedure
    (cfg : ScanSettings)
    (env : ε)
    (outer : OpenProcedures) : Step :=
  match outer with
  | [] => .answer (.error .malformed)
  | elements :: rest =>
      match makeArray env true elements.toList with
      | .ok o => place cfg rest o
      | .error cause => .answer (.error cause)

/- Go on with a piece. The text must not end in a procedure. -/
def step
    (cfg : ScanSettings)
    (env : ε)
    (outer : OpenProcedures) : Lexeme → Step
  | .object o => place cfg outer o
  | .opening => openProcedure cfg outer
  | .closing => closeProcedure cfg env outer
  | .ended =>
      if outer.isEmpty then
        .answer (.ok none)
      else
        .answer (.error .malformed)

/- Nothing is read behind the end. -/
theorem step_ended_ne_more
    (cfg : ScanSettings)
    (env : ε)
    (outer next : OpenProcedures) :
    step cfg env outer .ended ≠ .more next := by
  cases outer <;> simp [step]

/- The end is no object. -/
theorem step_ended_ne_object
    (cfg : ScanSettings)
    (env : ε)
    (outer : OpenProcedures)
    (o : Object) :
    step cfg env outer .ended ≠ .answer (.ok (some o)) := by
  cases outer <;> simp [step]

set_option linter.unusedVariables false in
/- Read pieces until an object is complete. -/
def readObject
    (cfg : ScanSettings)
    (outer : OpenProcedures)
    (st : ScanState σ ε) :
    Except Cause (Option Object) × ScanState σ ε :=
  match hRead : Lexeme.read cfg (!outer.isEmpty) st with
  | (.error cause, st') => (.error cause, st')
  | (.ok l, st') =>
      match hStep : step cfg st'.env outer l with
      | .answer r => (r, st')
      | .more outer' => readObject cfg outer' st'
termination_by remaining st.source
decreasing_by
  refine Lexeme.remaining_read_lt cfg _ st st' l hRead ?_
  intro hEnd
  subst hEnd
  exact step_ended_ne_more cfg st'.env outer outer' hStep

/- The object behind an open procedure takes a byte. -/
theorem remaining_readObject_lt
    (cfg : ScanSettings)
    (outer : OpenProcedures)
    (st st' : ScanState σ ε)
    (o : Object)
    (h : readObject cfg outer st = (.ok (some o), st')) :
    remaining st'.source < remaining st.source := by
  fun_induction readObject cfg outer st with
  | case1 => simp at h
  | case2 outer st l st₁ hRead r hStep =>
      simp only [Prod.mk.injEq] at h
      obtain ⟨rfl, rfl⟩ := h
      refine Lexeme.remaining_read_lt cfg _ st _ l hRead ?_
      intro hEnd
      subst hEnd
      exact step_ended_ne_object cfg _ outer o hStep
  | case3 outer st l st₁ hRead outer' hStep ih =>
      refine Nat.lt_trans (ih h) ?_
      refine Lexeme.remaining_read_lt cfg _ st _ l hRead ?_
      intro hEnd
      subst hEnd
      exact step_ended_ne_more cfg st₁.env outer outer' hStep

------------------------------------------------------------
-- Calls
------------------------------------------------------------

/- What is left for the next call. -/
structure Rest (σ ε : Type) where
  source : σ
  names : NameTable
  env : ε

/-
  Read one object, or nothing at the end of the input. An
  error tells the bytes of the token that it was found in.
-/
def scan
    (cfg : ScanSettings)
    (r : Rest σ ε) :
    Except Error (Option Object) × Rest σ ε :=
  match r with
  | ⟨source, names, env⟩ =>
      match readObject cfg [] ⟨source, names, env, #[]⟩ with
      | (.ok o, ⟨source', names', env', _⟩) =>
          (.ok o, ⟨source', names', env'⟩)
      | (.error cause, ⟨source', names', env', text⟩) =>
          (.error (.inToken cause text),
            ⟨source', names', env'⟩)

/- Every object takes at least one byte. -/
theorem remaining_scan_lt
    (cfg : ScanSettings)
    (r r' : Rest σ ε)
    (o : Object)
    (h : scan cfg r = (.ok (some o), r')) :
    remaining r'.source < remaining r.source := by
  unfold scan at h
  split at h
  split at h
  next hRead =>
    simp only [Prod.mk.injEq, Except.ok.injEq] at h
    obtain ⟨rfl, rfl⟩ := h
    exact remaining_readObject_lt cfg [] _ _ o hRead
  · simp at h

------------------------------------------------------------
-- Programs
------------------------------------------------------------

/- The objects of a source up to its end or an error. -/
structure Objects (σ ε : Type) where
  objects : List Object
  failure : Option Error
  rest : Rest σ ε

set_option linter.unusedVariables false in
/- Read objects behind those already read. -/
def objectsAfter
    (cfg : ScanSettings)
    (done : Array Object)
    (r : Rest σ ε) : Objects σ ε :=
  match hScan : scan cfg r with
  | (.ok none, r') => ⟨done.toList, none, r'⟩
  | (.error e, r') => ⟨done.toList, some e, r'⟩
  | (.ok (some o), r') => objectsAfter cfg (done.push o) r'
termination_by remaining r.source
decreasing_by
  exact remaining_scan_lt cfg r r' o hScan

/- All objects of a source, up to its end or an error. -/
def objects
    (cfg : ScanSettings)
    (r : Rest σ ε) : Objects σ ε :=
  objectsAfter cfg #[] r

/- The answer of a call and the source behind it. -/
structure Reply (σ : Type) where
  result : Except Error (Option Object)
  source : σ

set_option linter.unusedVariables false in
/-
  Call again and again, also after errors, until the input
  ends or one more than `failures` errors have been found.
-/
def transcriptAfter
    (cfg : ScanSettings)
    (done : Array (Reply σ))
    (failures : Nat)
    (r : Rest σ ε) : List (Reply σ) × Rest σ ε :=
  match hScan : scan cfg r with
  | (.ok none, r') =>
      ((done.push ⟨.ok none, r'.source⟩).toList, r')
  | (.ok (some o), r') =>
      transcriptAfter cfg
        (done.push ⟨.ok (some o), r'.source⟩) failures r'
  | (.error e, r') =>
      let done' := done.push ⟨.error e, r'.source⟩
      match failures with
      | 0 => (done'.toList, r')
      | n + 1 => transcriptAfter cfg done' n r'
termination_by (failures, remaining r.source)
decreasing_by
  · exact Prod.Lex.right _
      (remaining_scan_lt cfg r r' o hScan)
  · exact Prod.Lex.left _ _ (Nat.lt_succ_self n)

/- All answers of calls on one source. -/
def transcript
    (cfg : ScanSettings)
    (failures : Nat)
    (r : Rest σ ε) : List (Reply σ) × Rest σ ε :=
  transcriptAfter cfg #[] (failures - 1) r

end Scanner

end PostScript
