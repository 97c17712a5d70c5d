import PostScript.Proofs.Scanner.Bodies
import PostScript.Proofs.Scanner.Placement
import PostScript.Proofs.Sequence.Single

/-
  This file shows that a name which is evaluated at once means
  the same in program text and in a binary object sequence.
  Both make the name, look up its value and put it into a
  procedure, or fail with the same error.

  Key definitions include:
    * `Environment.Evaluates`

  Main results:
    * `Lexeme.slashed_immediate`
    * `Scanner.readObject_immediate`
    * `Scanner.scan_immediate_read`
-/

namespace PostScript

open ByteSource

variable {σ ε : Type}
variable [ByteSource σ]
variable [Environment ε]
variable {cfg : ScanSettings}

------------------------------------------------------------
-- Values
------------------------------------------------------------

/-
  What evaluating a name in a procedure comes to in a table,
  and the table after that: a procedure of the value of the
  name, an error if it has none, and another if the value is
  local and the procedure would be global.
-/
inductive Environment.Evaluates
    (env : ε)
    (t : NameTable)
    (n : Name) :
    Except ErrorKind Object → NameTable → Prop where
  | bound
      {v : Object}
      {t' : NameTable}
      (hLoad : t.load env n = (some v, t'))
      (hPlace : vm env = .globalVm → ¬ v.IsLocal) :
      Evaluates env t n
        (.ok (.array [v]
          { newAttrs env with executable := true })) t'
  | unbound
      {t' : NameTable}
      (hLoad : t.load env n = (none, t')) :
      Evaluates env t n (.error .undefined) t'
  | refused
      {v : Object}
      {t' : NameTable}
      (hLoad : t.load env n = (some v, t'))
      (hGlobal : vm env = .globalVm)
      (hLocal : v.IsLocal) :
      Evaluates env t n (.error .invalidAccess) t'

/- The value that an environment finds is looked up. -/
omit [ByteSource σ] in
theorem NameTable.load_of_find
    {t : NameTable}
    {env : ε}
    {n : Name}
    {v : Object}
    {hint : Option SlotId}
    (hFind :
      Environment.find env (t.hint n) n = some (v, hint)) :
    t.load env n = (some v, t.setHint n hint) := by
  unfold NameTable.load
  rw [hFind]

/- A procedure of a value that has been looked up. -/
theorem evaluates_procedureOf
    (env : ε)
    (t : NameTable)
    (n : Name)
    {missing : Cause}
    (hMissing : missing.kind = .undefined) :
    Environment.Evaluates env t n
      ((procedureOf env missing (t.load env n).1).mapError
        Cause.kind)
      (t.load env n).2 := by
  rcases hLoad : t.load env n with ⟨_ | v, t'⟩
  · simp only [procedureOf, Except.mapError, hMissing]
    exact .unbound hLoad
  · cases hMake : makeArray env true [v] with
    | ok o =>
        rcases makeArray_ok hMake with ⟨rfl, -, hLegal⟩
        simp only [procedureOf, hMake, Except.mapError]
        refine .bound hLoad ?_
        intro hGlobal hLocal
        have hIllegal :=
          Object.isIllegalIn_eq_true.mpr ⟨hGlobal, hLocal⟩
        rw [hLegal v List.mem_cons_self] at hIllegal
        contradiction
    | error cause =>
        simp only [procedureOf, hMake, Except.mapError]
        rcases makeArray_error hMake with
          ⟨-, hLong⟩ | ⟨rfl, e, he, hIllegal⟩
        · exact absurd hLong (of_decide_eq_false rfl)
        · rw [List.mem_singleton.mp he] at hIllegal
          rcases Object.isIllegalIn_eq_true.mp hIllegal with
            ⟨hGlobal, hLocal⟩
          exact .refused hLoad hGlobal hLocal

------------------------------------------------------------
-- Program Text
------------------------------------------------------------

namespace Lexeme

/- Regular bytes behind two slashes are looked up at once. -/
theorem slashed_immediate
    {bytes : Bytes}
    {rest : List UInt8}
    {src : σ}
    {names t : NameTable}
    {n : Name}
    (env : ε)
    (hRegular : ∀ b ∈ bytes, isRegular b = true)
    (hFits : bytes.size ≤ cfg.stringLength)
    (hIntern : names.intern bytes = (.ok n, t))
    (hSource :
      Supplies src
        (code '/' :: (bytes.toList ++ 0x7d :: rest))) :
    ∃ s,
      Supplies s (0x7d :: rest) ∧
        slashed cfg ⟨src, names, env, #[]⟩ =
          ((t.load env n).1.elim (.error .unbound) .ok,
            ⟨s, (t.load env n).2, env, bytes⟩) := by
  rcases hSource.byte with ⟨s₁, hNext, hName, -⟩
  have hSecond : secondSlash src = (.ok true, s₁) := by
    unfold secondSlash
    rw [hNext]
    rfl
  have hEnd : Irregular (0x7d :: rest) := by
    intro b hb
    cases hb
    rfl
  have hLimit :
      (#[] : Bytes).size + bytes.toList.length ≤
        max (#[] : Bytes).size cfg.stringLength := by
    simpa using hFits
  rcases regular_token
      (fun b hb => hRegular b (Array.mem_toList_iff.mp hb))
      hEnd hLimit hName with
    ⟨s, left, hGather, hLeft, rfl | ⟨b, hWhite, hSame⟩⟩
  · refine ⟨s, hLeft, ?_⟩
    unfold slashed
    dsimp only
    rw [hSecond]
    dsimp only
    rw [hGather, Array.empty_append, Array.toArray_toList]
    dsimp only
    rw [if_pos rfl]
    unfold immediateOf
    dsimp only
    rw [hIntern]
    dsimp only
    rcases t.load env n with ⟨_ | v, t'⟩ <;> rfl
  · -- The brace is no white space.
    cases hSame
    contradiction

end Lexeme

/- The names that a decoder leaves, also when it fails. -/
def namesLeft :
    EStateM.Result Cause NameTable (Object × Nat) → NameTable
  | .ok _ t | .error _ t => t

namespace Scanner

/- The outermost procedure is the answer when it is closed. -/
theorem closeProcedure_outermost
    (cfg : ScanSettings)
    (env : ε)
    (elements : Array Object) :
    closeProcedure cfg env [elements] =
      .answer
        ((makeArray env true elements.toList).map some) := by
  unfold closeProcedure
  dsimp only
  cases makeArray env true elements.toList <;> rfl

/-
  A procedure of one name that is evaluated at once is made of
  the value of that name.
-/
theorem readObject_immediate
    (hDepth : 1 ≤ cfg.procedureDepth)
    (hElements : 1 ≤ cfg.arrayLength)
    {bytes : Bytes}
    {rest : List UInt8}
    {src : σ}
    {names t : NameTable}
    {n : Name}
    (env : ε)
    (hRegular : ∀ b ∈ bytes, isRegular b = true)
    (hFits : bytes.size ≤ cfg.stringLength)
    (hIntern : names.intern bytes = (.ok n, t))
    (hSource :
      Supplies src
        (0x7b :: code '/' :: code '/' ::
          (bytes.toList ++ 0x7d :: rest))) :
    ∃ s text,
      readObject cfg [] ⟨src, names, env, #[]⟩ =
        ((procedureOf env .unbound (t.load env n).1).map some,
          ⟨s, (t.load env n).2, env, text⟩) := by
  have hSlash : Lexeme.BeginsObject cfg (code '/') :=
    Lexeme.beginsObject_delimiter cfg (.inl rfl)
  -- The brace opens a procedure without elements.
  rcases read_brace cfg false names env #[] hSource with
    ⟨s₁, hOpening, hInside⟩
  have hOpened :=
    readObject_opening (Nat.lt_of_succ_le hDepth) hOpening
  -- The name is looked up.
  rcases read_token true names env #[] hSlash.toBeginsToken
      hInside with
    ⟨s₂, hRead, hSecond⟩
  rcases Lexeme.slashed_immediate env hRegular hFits hIntern
      hSecond with
    ⟨s₃, hClosing, hSlashed⟩
  have hToken :
      Lexeme.tokenFrom cfg (code '/') ⟨s₂, names, env, #[]⟩ =
        Lexeme.slashed cfg ⟨s₂, names, env, #[]⟩ := rfl
  rw [hOpened, readObject_step, List.isEmpty_cons,
    Bool.not_false, hRead,
    Lexeme.readFrom_object true _ hSlash, hToken, hSlashed]
  rcases hLoad : t.load env n with ⟨_ | v, t'⟩
  · exact ⟨s₃, bytes, rfl⟩
  · -- The other brace closes the procedure around the value.
    have hBrace := Lexeme.beginsToken_brace cfg (.inr rfl)
    rcases read_token true t' env bytes hBrace hClosing with
      ⟨s₄, hClosed, -⟩
    have hPlace :
        place cfg [#[]] v = .more [#[v]] :=
      place_more v (Nat.lt_of_succ_le hElements)
    refine ⟨s₄, #[], ?_⟩
    change follow cfg (place cfg [#[]] v)
      ⟨s₃, t', env, bytes⟩ = _
    rw [hPlace]
    change readObject cfg [#[v]] ⟨s₃, t', env, bytes⟩ = _
    rw [readObject_step, List.isEmpty_cons, Bool.not_false,
      hClosed]
    change
      follow cfg (closeProcedure cfg env [#[v]])
        ⟨s₄, t', env, #[]⟩ = _
    rw [closeProcedure_outermost]
    rfl

/- A call fails for the reason that reading fails for. -/
theorem scan_of_readObject
    {src : σ}
    {names : NameTable}
    {env : ε}
    {x : Except Cause (Option Object)}
    {st : ScanState σ ε}
    (hObject :
      readObject cfg [] ⟨src, names, env, #[]⟩ = (x, st)) :
    (scan cfg ⟨src, names, env⟩).1.mapError Error.kind =
        x.mapError Cause.kind ∧
      (scan cfg ⟨src, names, env⟩).2 =
        ⟨st.source, st.names, st.env⟩ := by
  unfold scan
  dsimp only
  rw [hObject]
  cases x with
  | ok o => exact ⟨rfl, rfl⟩
  | error cause =>
      refine ⟨?_, rfl⟩
      rw [mapError_kind]
      simp only [Except.mapError, cause_inToken]

/-
  A procedure of a name that is evaluated at once, and a
  sequence of one record that refers to the name as one to be
  evaluated at once, come to the same: what evaluating the
  name in a procedure comes to. The sequence may have any
  format, its header may be short or extended, and its record
  may or may not be executable.
-/
theorem scan_immediate_read
    (hDepth : 1 ≤ cfg.procedureDepth)
    (hElements : 1 ≤ cfg.arrayLength)
    {bytes : Bytes}
    (hSome : 1 ≤ bytes.size)
    (hShort : bytes.size ≤ maxNameLength)
    (hFits : bytes.size ≤ cfg.stringLength)
    (hRegular : ∀ b ∈ bytes, isRegular b = true)
    {names : NameTable}
    (hTable : names.WellFormed)
    (env : ε)
    {src : σ}
    {rest : List UInt8}
    (hSource :
      Supplies src
        (0x7b :: code '/' :: code '/' ::
          (bytes.toList ++ 0x7d :: rest)))
    {data zone : Bytes}
    {h : Header}
    {r : Record}
    (hSingle : Sequence.Single data h r zone)
    (hType : r.type = RecordType.immediateName.code)
    (hRefers : Sequence.Refers zone r bytes) :
    ∃ n t t' result,
      names.intern bytes = (.ok n, t) ∧
        Environment.Evaluates env t n result t' ∧
        (scan cfg ⟨src, names, env⟩).1.mapError Error.kind =
          result.map some ∧
        (scan cfg ⟨src, names, env⟩).2.names = t' ∧
        (decoded (Sequence.read env data names)).mapError
          Cause.kind = result.map some ∧
        namesLeft (Sequence.read env data names) = t' := by
  rcases names.internWithin_ok hShort with ⟨n, t, hIntern⟩
  rcases readObject_immediate hDepth hElements env hRegular
      hFits hIntern hSource with
    ⟨s, text, hObject⟩
  have hRead :=
    hSingle.read hTable env hType hRefers
      (Nat.ne_of_gt hSome) hShort hIntern
  rcases scan_of_readObject hObject with ⟨hKind, hRest⟩
  have hSame :
      (procedureOf env (.unboundName bytes)
          (t.load env n).1).mapError Cause.kind =
        (procedureOf env .unbound
          (t.load env n).1).mapError Cause.kind := by
    cases (t.load env n).1 <;> rfl
  refine ⟨n, t, (t.load env n).2, _, hIntern,
    evaluates_procedureOf env t n
      (rfl : (Cause.unboundName bytes).kind = .undefined),
    ?_, by rw [hRest], ?_, ?_⟩
  · rw [hKind, hSame]
    cases procedureOf env .unbound (t.load env n).1 <;> rfl
  · rw [hRead]
    cases procedureOf env (.unboundName bytes)
      (t.load env n).1 <;> rfl
  · rw [hRead]
    cases procedureOf env (.unboundName bytes)
      (t.load env n).1 <;> rfl

/- The name `abs`, which has a number, bound to an integer. -/
theorem scan_immediate_read_abs :
    ∃ (s : Scope) (data : Bytes),
      data = #[128, 1, 0, 12, 6, 0, 0xff, 0xff, 0, 0, 0, 0] ∧
        Environment.find s none
            ⟨0, Bytes.ofText "abs", some 0⟩ =
          some (.integer 7, none) ∧
        (scan {}
          ⟨Reader.ofList
            (0x7b :: code '/' :: code '/' ::
              ((Bytes.ofText "abs").toList ++ [0x7d])),
            NameTable.initial, s⟩).1.mapError Error.kind =
          .ok (some (.array [.integer 7]
            { executable := true })) ∧
        (decoded
          (Sequence.read s data
            NameTable.initial)).mapError Cause.kind =
          .ok (some (.array [.integer 7]
            { executable := true })) := by
  let n : Name := ⟨0, Bytes.ofText "abs", some 0⟩
  let s : Scope :=
    ⟨{ Scope.empty.stack with user := ⟨[(n, ⟨0⟩)]⟩ },
      ⟨[(⟨0⟩, .integer 7)], 1⟩⟩
  have hTable : NameTable.initial.WellFormed :=
    NameTable.lists_initial.wellFormed
  have hSingle :
      Sequence.Single
        #[128, 1, 0, 12, 6, 0, 0xff, 0xff, 0, 0, 0, 0]
        ⟨⟨.big, .ieee⟩, 1, 12, false⟩
        ⟨RecordType.immediateName.code, false,
          systemNameLength, 0⟩ #[] :=
    ⟨⟨by decide, by decide⟩, rfl, rfl, #[], by decide⟩
  have hRegular :
      ∀ b ∈ Bytes.ofText "abs", isRegular b = true := by
    intro b hb
    have hAll :
        (Bytes.ofText "abs").toList.all isRegular = true := by
      decide
    exact List.all_eq_true.mp hAll b
      (Array.mem_toList_iff.mpr hb)
  have hRoom :
      1 ≤ ({} : ScanSettings).procedureDepth ∧
        1 ≤ ({} : ScanSettings).arrayLength := by
    decide
  have hFits :
      (Bytes.ofText "abs").size ≤
        ({} : ScanSettings).stringLength := by
    decide
  have hSource :
      Supplies
        (Reader.ofList
          (0x7b :: code '/' :: code '/' ::
            ((Bytes.ofText "abs").toList ++ [0x7d])))
        (0x7b :: code '/' :: code '/' ::
          ((Bytes.ofText "abs").toList ++ [0x7d])) :=
    Reader.supplies (Reader.ofList _)
  rcases scan_immediate_read hRoom.1 hRoom.2 (by decide)
      (by decide) hFits hRegular hTable s hSource hSingle rfl
      (.index rfl getElem?_systemNames_zero) with
    ⟨n', t, t', result, hIntern, hEvaluates, hScan, -, hRead,
      -⟩
  -- Whatever the hint is, the name has this value.
  have hFind :
      ∀ hint, ∃ hint',
        Environment.find s hint n = some (.integer 7, hint') := by
    intro hint
    cases hHint : hint.bind s.heap.read? with
    | none =>
        refine ⟨hint, ?_⟩
        change s.find hint n = _
        unfold Scope.find
        rw [hHint]
        rfl
    | some v =>
        refine ⟨hint, ?_⟩
        rcases Option.bind_eq_some_iff.mp hHint with
          ⟨slot, -, hCell⟩
        have hMem := Heap.mem_of_read? hCell
        have hValue : v = .integer 7 :=
          congrArg Prod.snd (List.mem_singleton.mp hMem)
        change s.find hint n = _
        unfold Scope.find
        rw [hHint, hValue]
  have hKnown : NameTable.initial.intern n.bytes = _ :=
    hTable.internWithin_of_holds hTable.holds_abs (by decide)
  have hName : (Except.ok n', t) = (.ok n, NameTable.initial) :=
    hIntern.symm.trans hKnown
  cases hName
  rcases hFind (NameTable.initial.hint n) with ⟨hint, hSeven⟩
  have hLoaded := NameTable.load_of_find hSeven
  have hResult :
      result =
        .ok (.array [.integer 7] { executable := true }) := by
    cases hEvaluates with
    | bound hLoad _ =>
        rw [hLoaded] at hLoad
        cases hLoad
        rfl
    | unbound hLoad =>
        rw [hLoaded] at hLoad
        cases hLoad
    | refused _ hGlobal _ => cases hGlobal
  subst hResult
  exact ⟨s, _, rfl, rfl, hScan, hRead⟩

end Scanner

end PostScript
