import PostScript.Proofs.Scanner.Bodies
import PostScript.Proofs.Scanner.Peers
import PostScript.Proofs.Scanner.Placement

/-
  This file shows that an error in a procedure is about the
  piece that failed, and not about the elements in front of
  it: what stands behind some elements fails for the same
  cause, and with the same bytes of a token, as it does alone.
  Only where the input ends between two elements, the bytes of
  the one in front are taken for those of a token that failed.

  Main results:
    * `Scope.unbound`
    * `Scanner.objectsAfter_legal`
    * `Lexeme.read_held`
    * `Scanner.readObject_behind`
    * `Scanner.scan_error_behind`
-/

namespace PostScript

open ByteSource

variable {σ σ₁ σ₂ σ₃ ε : Type}
variable [Environment ε]
variable {system : Array Name}
variable {vm : Vm}

------------------------------------------------------------
-- Scopes
------------------------------------------------------------

/- Whatever the interpreter hears, its memory is the same. -/
theorem Scope.vm_heard
    (s : Scope)
    (heard : List Bytes) :
    (heard.foldl Environment.comment s).stack.vm =
      s.stack.vm := by
  induction heard generalizing s with
  | nil => rfl
  | cons text heard ih => exact ih _

/- In a scope without cells no name has a value. -/
theorem Scope.unbound
    {s : Scope}
    (hEmpty : ∀ slot, s.heap.read? slot = none) :
    Environment.Unbound s.stack.vm s := by
  rintro env' ⟨heard, rfl⟩
  refine ⟨?_, s.vm_heard heard⟩
  intro hint n
  cases hFind : Scope.find (heard.foldl Environment.comment s)
      hint n with
  | none => exact hFind
  | some found =>
      rcases Scope.find_cell hFind with ⟨slot, hRead⟩
      rw [s.heap_heard heard, hEmpty] at hRead
      cases hRead

namespace Scanner

------------------------------------------------------------
-- Calls
------------------------------------------------------------

section Calls

variable [ByteSource σ]
variable {cfg : ScanSettings}

/- An error of a call was found while reading. -/
theorem readObject_of_error
    {r r' : Rest σ ε}
    {e : Error}
    (hScan : scan cfg r = (.error e, r')) :
    ∃ cause st,
      readObject cfg [] ⟨r.source, r.names, r.env, #[]⟩ =
          (.error cause, st) ∧
        e = .inToken cause st.text := by
  rcases r with ⟨source, names, env⟩
  unfold scan at hScan
  dsimp only at hScan
  split at hScan
  next => cases hScan
  next hRead =>
    cases hScan
    exact ⟨_, _, hRead, rfl⟩

/- An error that is found while reading is reported. -/
theorem scan_of_error
    {src : σ}
    {names : NameTable}
    {env : ε}
    {cause : Cause}
    {st : ScanState σ ε}
    (hRead :
      readObject cfg [] ⟨src, names, env, #[]⟩ =
        (.error cause, st)) :
    scan cfg ⟨src, names, env⟩ =
      (.error (.inToken cause st.text),
        ⟨st.source, st.names, st.env⟩) := by
  unfold scan
  dsimp only
  rw [hRead]

/-
  A call adds no system names and leaves the environment
  without values, and its object may be put into any array.
-/
theorem scan_legal
    (cfg : ScanSettings)
    {r : Rest σ ε}
    (hSystem : r.names.system = system)
    (hEnv : Environment.Unbound vm r.env) :
    (scan cfg r).2.names.system = system ∧
      Environment.Unbound vm (scan cfg r).2.env ∧
        ∀ o, (scan cfg r).1 = .ok (some o) →
          o.isIllegalIn vm = false := by
  rcases r with ⟨src, names, env⟩
  have hPeers :
      (⟨src, names, env, #[]⟩ : ScanState σ ε).Peers system vm
        ⟨src, names, env, #[]⟩ :=
    ⟨⟨hSystem, hSystem⟩, hEnv, hEnv, src, #[]⟩
  have hRoom :
      Roomy cfg 0
        (mostElements cfg [] ⟨src, names, env, #[]⟩) :=
    .inl rfl
  have hRuns := readObject_paired .none hPeers hRoom
  unfold scan
  dsimp only
  generalize readObject cfg [] ⟨src, names, env, #[]⟩ = x
    at hRuns ⊢
  cases hRuns with
  | ok hFits hPeers =>
      rcases hPeers with ⟨hNames, hEnv, -, -, -⟩
      refine ⟨hNames.left, hEnv, ?_⟩
      intro o ho
      cases ho
      cases hFits with
      | some hFits => exact hFits.1
  | error cause hPeers =>
      rcases hPeers with ⟨hNames, hEnv, -, -, -⟩
      exact ⟨hNames.left, hEnv, nofun⟩

/- So it is with all objects of a text, call by call. -/
theorem objectsAfter_legal
    (cfg : ScanSettings)
    (done : Array Object)
    (r : Rest σ ε)
    (hSystem : r.names.system = system)
    (hEnv : Environment.Unbound vm r.env)
    (hDone : ∀ o ∈ done.toList, o.isIllegalIn vm = false) :
    (objectsAfter cfg done r).rest.names.system = system ∧
      Environment.Unbound vm
        (objectsAfter cfg done r).rest.env ∧
        ∀ o ∈ (objectsAfter cfg done r).objects,
          o.isIllegalIn vm = false := by
  have hCall := scan_legal cfg hSystem hEnv
  fun_induction objectsAfter cfg done r with
  | case1 done r r' hScan =>
      rw [hScan] at hCall
      exact ⟨hCall.1, hCall.2.1, hDone⟩
  | case2 done r e r' hScan =>
      rw [hScan] at hCall
      exact ⟨hCall.1, hCall.2.1, hDone⟩
  | case3 done r o r' hScan ih =>
      rw [hScan] at hCall
      rcases hCall with ⟨hSystem', hEnv', hObject⟩
      exact ih hSystem' hEnv'
        (legal_push hDone (hObject o rfl))
        (scan_legal cfg hSystem' hEnv')

end Calls

end Scanner

------------------------------------------------------------
-- Held Bytes
------------------------------------------------------------

namespace Lexeme

variable [ByteSource σ]
variable {cfg : ScanSettings}

/-
  What is held of an earlier token is forgotten where another
  piece begins, or a comment. By induction on the white space
  in front of it.
-/
theorem read_held
    (hEnds : cfg.controlDEnds = false)
    {q : List UInt8}
    (hMore : ∃ b ∈ q, isWhitespace b = false)
    {src : σ}
    (hSource : Supplies src q)
    (nested : Bool)
    (names : NameTable)
    (env : ε)
    (text text' : Bytes) :
    read cfg nested ⟨src, names, env, text'⟩ =
      read cfg nested ⟨src, names, env, text⟩ := by
  induction q generalizing src with
  | nil =>
      rcases hMore with ⟨b, hb, -⟩
      cases hb
  | cons b q ih =>
      rcases hSource.byte with ⟨s, hNext, hRest, -⟩
      have hMark : ¬ isEndMark cfg b = true := by
        simp [isEndMark, hEnds]
      unfold read
      rw [skipBlanks_byte cfg names env text hNext,
        skipBlanks_byte cfg names env text' hNext]
      by_cases hSign : (b == code '%') = true
      · rw [if_pos hSign, if_pos hSign]
      · rw [if_neg hSign, if_neg hSign, if_neg hMark,
          if_neg hMark]
        by_cases hWhite : isWhitespace b = true
        · rw [if_pos hWhite, if_pos hWhite]
          refine ih ?_ hRest
          rcases hMore with ⟨c, hc, hOther⟩
          rcases List.mem_cons.mp hc with rfl | hc
          · rw [hOther] at hWhite
            cases hWhite
          · exact ⟨c, hc, hOther⟩
        · rw [if_neg hWhite, if_neg hWhite]

/- White space is blanks. -/
theorem blanks_of_white
    {q : List UInt8}
    (hWhite : ∀ b ∈ q, isWhitespace b = true) :
    Blanks q := by
  induction q with
  | nil => exact .nil
  | cons b q ih =>
      exact .white (hWhite b List.mem_cons_self)
        (ih (fun c hc => hWhite c (List.mem_cons_of_mem _ hc)))

end Lexeme

namespace Scanner

section Procedures

variable [ByteSource σ]
variable {cfg : ScanSettings}

/-
  A call that begins with a brace goes on in a procedure, in
  which all elements of the call are gathered.
-/
theorem readObject_brace
    (cfg : ScanSettings)
    {src : σ}
    {rest : List UInt8}
    (names : NameTable)
    (env : ε)
    (hSource : Supplies src (0x7b :: rest)) :
    ∃ s,
      readObject (cfg.deeper 1) []
            ⟨src, names, env, #[]⟩ =
          readObject (cfg.deeper 1) [#[]]
            ⟨s, names, env, #[]⟩ ∧
        mostElements (cfg.deeper 1) []
              ⟨src, names, env, #[]⟩ =
            mostElements (cfg.deeper 1) [#[]]
              ⟨s, names, env, #[]⟩ ∧
          Supplies s rest := by
  have hDepth : 0 < (cfg.deeper 1).procedureDepth :=
    Nat.succ_pos _
  rcases read_brace (cfg.deeper 1) false names env #[] hSource
    with ⟨s, hBrace, hRest⟩
  refine ⟨s, readObject_opening hDepth hBrace, ?_, hRest⟩
  rw [mostElements_of_more hBrace (step_opening env hDepth)]
  exact Nat.zero_max _

/- White space behind the elements ends in an error. -/
theorem readObject_white
    {q : List UInt8}
    (hWhite : ∀ b ∈ q, isWhitespace b = true)
    {src : σ}
    (hSource : Supplies src q)
    (elements : Array Object)
    (names : NameTable)
    (env : ε)
    (text : Bytes) :
    ∃ st,
      readObject cfg [elements] ⟨src, names, env, text⟩ =
        (.error .malformed, st) := by
  let start : ScanState σ ε := ⟨src, names, env, text⟩
  have hStart : Supplies start.source q := hSource
  rcases Lexeme.read_atEnd cfg true
      (Lexeme.blanks_of_white hWhite) hStart with
    ⟨st, hRead, -⟩
  refine ⟨st, ?_⟩
  rw [readObject_step, List.isEmpty_cons, Bool.not_false,
    hRead]
  rfl

end Procedures

------------------------------------------------------------
-- Errors
------------------------------------------------------------

/- What an answer tells of an error. -/
def told
    (answer : Except Error (Option Object)) :
    Option (Option Detail) :=
  match answer with
  | .error e => some e.detail
  | .ok _ => none

/- An answer that tells of an error is one. -/
theorem exists_of_told
    {ρ : Type}
    (x : Except Error (Option Object) × ρ)
    (d : Option Detail)
    (hTold : told x.1 = some d) :
    ∃ e r, x = (.error e, r) ∧ e.detail = d := by
  rcases x with ⟨e | _, r⟩
  · exact ⟨e, r, rfl, Option.some.inj hTold⟩
  · cases hTold

/- The objects of a text that is read to its end. -/
theorem eq_of_failure
    {ε : Type}
    (os : Objects σ ε)
    (hEnds : os.failure = none) :
    os = ⟨os.objects, none, os.rest⟩ := by
  rcases os with ⟨objects, _, rest⟩
  cases hEnds
  rfl

variable [ByteSource σ₁]
variable [ByteSource σ₂]
variable [ByteSource σ₃]
variable {cfg : ScanSettings}

/-
  The objects of a text that is scanned to its end become the
  elements of a procedure.
-/
theorem readObject_elements
    (hEnds : cfg.controlDEnds = false)
    {p q : List UInt8}
    {inner : σ₁}
    {outer : σ₂}
    (hInner : Supplies inner p)
    (hOuter : Supplies outer (p ++ 0x0a :: q))
    {names : NameTable}
    {env : ε}
    {xs : List Object}
    {r : Rest σ₁ ε}
    (hObjects :
      objects cfg ⟨inner, names, env⟩ = ⟨xs, none, r⟩)
    (hRoom : xs.length ≤ cfg.arrayLength) :
    ∃ behind held,
      readObject (cfg.deeper 1) [#[]]
            ⟨outer, names, env, #[]⟩ =
          readObject (cfg.deeper 1) [xs.toArray]
            ⟨behind, r.names, r.env, held⟩ ∧
        Supplies behind q := by
  have hNever :
      ¬ (cfg.controlDEnds = true ∨
        ¬ (fun _ : Cause => True) .malformed) := by
    simp [hEnds]
  rcases readObject_body (tracks_append q) hNever []
      ⟨outer, names, env, #[]⟩
      ⟨.inl ⟨p, hInner, hOuter⟩, rfl, rfl⟩ hObjects hRoom with
    ⟨⟨behind, names', env', held⟩, hBody, ⟨-, hBehind⟩, hNames,
      hEnv⟩
  dsimp only at hNames hEnv
  subst hNames hEnv
  exact ⟨behind, held, hBody, hBehind⟩

/-
  Elements in front change nothing of an error, unless there
  is nothing but white space behind them.
-/
theorem readObject_behind
    (hEnds : cfg.controlDEnds = false)
    {q : List UInt8}
    (hMore : ∃ b ∈ q, isWhitespace b = false)
    {s₁ : σ₁}
    {s₂ : σ₂}
    (hFirst : Supplies s₁ q)
    (hSecond : Supplies s₂ q)
    {t t' : NameTable}
    {env env' : ε}
    (hNames : NameTable.Peers system t t')
    (hEnv : Environment.Unbound vm env)
    (hEnv' : Environment.Unbound vm env')
    {xs : List Object}
    (hLegal : ∀ o ∈ xs, o.isIllegalIn vm = false)
    (hRoom :
      Roomy cfg xs.length
        (mostElements cfg [#[]] ⟨s₁, t, env, #[]⟩))
    (held : Bytes)
    {cause : Cause}
    {st : ScanState σ₁ ε}
    (hError :
      readObject cfg [#[]] ⟨s₁, t, env, #[]⟩ =
        (.error cause, st)) :
    ∃ st' : ScanState σ₂ ε,
      readObject cfg [xs.toArray] ⟨s₂, t', env', held⟩ =
          (.error cause, st') ∧
        st'.text = st.text := by
  -- The bytes that are held of the elements are forgotten.
  have hForgotten :
      readObject cfg [xs.toArray] ⟨s₂, t', env', held⟩ =
        readObject cfg [xs.toArray] ⟨s₂, t', env', #[]⟩ := by
    rw [readObject_step _ ⟨s₂, t', env', held⟩,
      readObject_step _ ⟨s₂, t', env', #[]⟩,
      Lexeme.read_held hEnds hMore hSecond _ t' env' #[] held]
  -- With the elements in front, one source does the same.
  have hPreceded : Preceded vm xs.length [#[]] [xs.toArray] :=
    .outermost rfl nofun hLegal
  have hPaired :=
    readObject_paired hPreceded
      (.intro hNames hEnv hEnv' s₁ #[]) hRoom
  rw [hError] at hPaired
  -- The other source supplies the same text.
  have hAgree :=
    readObject_agree tracks_same cfg
      (List.cons_ne_nil xs.toArray [])
      (.intro (.inl ⟨q, hFirst, hSecond⟩) t' env' #[])
  rw [hForgotten]
  generalize readObject cfg [xs.toArray] ⟨s₁, t', env', #[]⟩ =
    y at hPaired hAgree
  cases hPaired with
  | @error _ _ st₁ hPeers =>
      generalize readObject cfg [xs.toArray]
        ⟨s₂, t', env', #[]⟩ = z at hAgree ⊢
      cases hAgree with
      | gap hGap => exact hGap.elim
      | @same _ _ st₂ hOver =>
          refine ⟨st₂, rfl, ?_⟩
          cases hPeers
          cases hOver
          rfl

/-
  What an error says depends on what failed, and not on the
  elements that stand in front of it in the same procedure: it
  is the error that there is without them. Only where the
  input ends behind white space, no token has failed, and then
  the error may tell the bytes of the last element instead of
  none.
-/
theorem scan_error_behind
    (hEnds : cfg.controlDEnds = false)
    {p q : List UInt8}
    {inner : σ₁}
    {alone : σ₂}
    {outer : σ₃}
    (hInner : Supplies inner p)
    (hAlone : Supplies alone (0x7b :: q))
    (hOuter : Supplies outer (0x7b :: (p ++ 0x0a :: q)))
    {names : NameTable}
    {env : ε}
    (hEnv : Environment.Unbound vm env)
    {xs : List Object}
    {r : Rest σ₁ ε}
    (hObjects :
      objects cfg ⟨inner, names, env⟩ = ⟨xs, none, r⟩)
    (hRoom :
      xs.length +
          mostElements
            { cfg with
              procedureDepth := cfg.procedureDepth + 1 }
            [] ⟨alone, names, env, #[]⟩ ≤
        min cfg.arrayLength maxArrayLength)
    {e : Error}
    {r₁ : Rest σ₂ ε}
    (hError :
      scan
          { cfg with procedureDepth := cfg.procedureDepth + 1 }
          ⟨alone, names, env⟩ =
        (.error e, r₁)) :
    ∃ e' r₂,
      scan
          { cfg with procedureDepth := cfg.procedureDepth + 1 }
          ⟨outer, names, env⟩ =
        (.error e', r₂) ∧
        e'.kind = e.kind ∧
          ((∃ b ∈ q, isWhitespace b = false) → e' = e) := by
  have hFits : xs.length ≤ cfg.arrayLength :=
    Nat.le_trans (Nat.le_add_right _ _) (Nat.le_min.mp hRoom).1
  -- The braces open procedures without elements.
  rcases readObject_brace cfg names env hAlone with
    ⟨s₁, hAlone₁, hCount, hFirst⟩
  rcases readObject_brace cfg names env hOuter with
    ⟨s₂, hOuter₂, -, hSecond⟩
  -- In one of them the objects of the text become elements.
  rcases readObject_elements hEnds hInner hSecond hObjects hFits
    with ⟨s', held, hBody, hBehind⟩
  have hLegal :=
    objectsAfter_legal cfg #[] ⟨inner, names, env⟩ rfl hEnv
      nofun
  rw [show objectsAfter cfg #[] ⟨inner, names, env⟩ =
      ⟨xs, none, r⟩ from hObjects] at hLegal
  dsimp only at hLegal
  rcases hLegal with ⟨hSystem, hUnbound, hLegal⟩
  -- Then both go on with the same text.
  rcases readObject_of_error hError with ⟨cause, st, hRead, rfl⟩
  have hFailed := hAlone₁.symm.trans hRead
  by_cases hMore : ∃ b ∈ q, isWhitespace b = false
  · have hEnds' : (cfg.deeper 1).controlDEnds = false := hEnds
    have hRoom' :
        Roomy (cfg.deeper 1) xs.length
          (mostElements (cfg.deeper 1) [#[]]
            ⟨s₁, names, env, #[]⟩) :=
      .inr (hCount ▸ hRoom)
    rcases readObject_behind hEnds' hMore hFirst hBehind
        ⟨rfl, hSystem⟩ hEnv hUnbound hLegal hRoom' held
        hFailed with
      ⟨st', hSame, hText⟩
    refine ⟨_, _,
      scan_of_error (hOuter₂.trans (hBody.trans hSame)), ?_⟩
    rw [hText]
    exact ⟨rfl, fun _ => rfl⟩
  · have hWhite : ∀ b ∈ q, isWhitespace b = true := by
      simpa using hMore
    rcases readObject_white hWhite hFirst #[] names env #[]
      with ⟨_, hEnded⟩
    rcases readObject_white hWhite hBehind xs.toArray r.names
        r.env held with
      ⟨st', hEnded'⟩
    cases hEnded.symm.trans hFailed
    refine ⟨_, _,
      scan_of_error (hOuter₂.trans (hBody.trans hEnded')), ?_,
      fun hOther => absurd hOther hMore⟩
    simp only [Error.kind, cause_inToken]

/-
  The error of a closing parenthesis is the same behind a
  number as it is alone.
-/
theorem scan_error_behind_number :
    ∃ e r₁ r₂,
      scan {}
          ⟨Reader.ofList [0x7b, code ')'], NameTable.initial,
            Scope.empty⟩ =
        (.error e, r₁) ∧
      scan {}
          ⟨Reader.ofList [0x7b, code '1', 0x0a, code ')'],
            NameTable.initial, Scope.empty⟩ =
        (.error e, r₂) := by
  have hObjects :=
    eq_of_failure
      (objects { procedureDepth := 255 }
        ⟨Reader.ofList [code '1'], NameTable.initial,
          Scope.empty⟩)
      (by decide +kernel)
  rcases exists_of_told
      (scan {}
        ⟨Reader.ofList [0x7b, code ')'], NameTable.initial,
          Scope.empty⟩)
      (some (.token #[code ')'])) (by decide +kernel) with
    ⟨e, r₁, hError, -⟩
  rcases scan_error_behind rfl (Reader.supplies _)
      (Reader.supplies _)
      (Reader.supplies
        (Reader.ofList [0x7b, code '1', 0x0a, code ')']))
      (Scope.unbound fun _ => rfl) hObjects
      (by decide +kernel) hError with
    ⟨e', r₂, hBehind, -, hSame⟩
  cases hSame ⟨code ')', List.mem_singleton_self _, rfl⟩
  exact ⟨e, r₁, r₂, hError, hBehind⟩

/-
  Where a procedure is not closed, no token has failed. But
  behind a number and a line end, its bytes are told.
-/
theorem scan_error_tells_element :
    ∃ xs r e r₁ e' r₂,
      objects { procedureDepth := 255 }
          ⟨Reader.ofList [code '1'], NameTable.initial,
            Scope.empty⟩ =
        ⟨xs, none, r⟩ ∧
      scan {}
          ⟨Reader.ofList [0x7b], NameTable.initial,
            Scope.empty⟩ =
        (.error e, r₁) ∧
      scan {}
          ⟨Reader.ofList [0x7b, code '1', 0x0a],
            NameTable.initial, Scope.empty⟩ =
        (.error e', r₂) ∧
      e.detail = none ∧
        e'.detail = some (.token #[code '1']) := by
  have hObjects :=
    eq_of_failure
      (objects { procedureDepth := 255 }
        ⟨Reader.ofList [code '1'], NameTable.initial,
          Scope.empty⟩)
      (by decide +kernel)
  rcases exists_of_told
      (scan {}
        ⟨Reader.ofList [0x7b], NameTable.initial,
          Scope.empty⟩)
      none (by decide +kernel) with
    ⟨e, r₁, hError, hDetail⟩
  rcases exists_of_told
      (scan {}
        ⟨Reader.ofList [0x7b, code '1', 0x0a],
          NameTable.initial, Scope.empty⟩)
      (some (.token #[code '1'])) (by decide +kernel) with
    ⟨e', r₂, hError', hDetail'⟩
  exact ⟨_, _, e, r₁, e', r₂, hObjects, hError, hError',
    hDetail, hDetail'⟩

end Scanner

end PostScript
