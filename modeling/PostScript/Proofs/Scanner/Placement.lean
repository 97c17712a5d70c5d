import PostScript.Proofs.Scanner.Concatenation
import PostScript.Proofs.Scanner.Echoes
import PostScript.Proofs.Workspace.Reads

/-
  This file shows that no composite in global memory ever
  comes to refer to one in local memory, whether program text
  is scanned or binary data is decoded. What a call makes is
  told from what it finds under a name by a second call, in
  which the values of names come wrapped.

  Key definitions include:
    * `Guarded`

  Main results:
    * `Answered.guarded`
    * `Scope.gives_placed`
    * `Scanner.scan_decode_guarded`
-/

namespace PostScript

variable {σ ε : Type}
variable [Environment ε]

------------------------------------------------------------
-- Guarded Calls
------------------------------------------------------------

/-
  The first answer is that of a call, the second that of the
  same call where values of names come wrapped. Every object
  that the call gives is well placed, and it is made of the
  values inside the wrappers and of new composites, which all
  carry the attributes of what is made here. If the second
  call puts a value that is local into a global array, then
  the first is refused. If the second fails for another
  reason, then the first fails for that one, unless it is
  refused before.
-/
structure Guarded
    (E : ε → Prop)
    (x y : Except ErrorKind (Option Object)) : Prop where
  object :
    ∀ o, x = .ok (some o) →
      o.WellPlaced ∧
        ∃ d, y = .ok (some d) ∧ Object.Unwraps E d o
  nothing : x = .ok none → y = .ok none
  error :
    ∀ kind, x = .error kind →
      y = .error kind ∨
        (kind = .invalidAccess ∧
          ∃ env, E env ∧ Environment.vm env = .globalVm)
  refused :
    ∀ (d v : Object), y = .ok (some d) →
      v.HeldGloballyIn d → v.IsLocal →
        x = .error .invalidAccess
  failed :
    ∀ kind, y = .error kind →
      x = .error kind ∨ x = .error .invalidAccess

/- Calls that answer alike, unless refused, are guarded. -/
theorem Answered.guarded
    {E : ε → Prop}
    {x y : Except Cause (Option Object)}
    (h :
      Answered (Environment.Refuses E) (Scanner.Found E) x y) :
    Guarded E (x.mapError Cause.kind)
      (y.mapError Cause.kind) := by
  cases h with
  | ok hFound =>
      cases hFound with
      | none =>
          exact ⟨nofun, fun _ => rfl, nofun, nofun, nofun⟩
      | @some d o hMade =>
          refine ⟨?_, nofun, nofun, ?_, nofun⟩
          · intro o' hObject
            cases hObject
            exact ⟨hMade.placed, d, rfl, hMade.unwraps⟩
          · intro d' v hObject hHeld hLocal
            cases hObject
            exact absurd hLocal
              (hHeld.not_isLocal hMade.unwraps hMade.placed)
  | error cause =>
      exact ⟨nofun, nofun, fun _ h => .inl h, nofun,
        fun _ h => .inl h⟩
  | refused hRefusal =>
      rcases hRefusal with ⟨rfl, hGlobal⟩
      refine ⟨nofun, nofun, ?_, fun _ _ _ _ _ => rfl,
        fun _ _ => .inr rfl⟩
      intro kind hKind
      cases hKind
      exact .inr ⟨rfl, hGlobal⟩

/- What a decoder answers beside the bytes that it takes. -/
def decoded
    (r : EStateM.Result Cause NameTable (Object × Nat)) :
    Except Cause (Option Object) :=
  match r with
  | .ok (o, _) _ => .ok (some o)
  | .error cause _ => .error cause

/- Decoders that do alike answer alike. -/
theorem Echoes.decoded
    {E : ε → Prop}
    {x y : EStateM Cause NameTable (Object × Nat)}
    (h :
      Echoes (Environment.Refuses E)
        (fun d o => Object.Made E d.1 o.1 ∧ d.2 = o.2) x y)
    (names : NameTable) :
    Answered (Environment.Refuses E) (Scanner.Found E)
      (PostScript.decoded (x names))
      (PostScript.decoded (y names)) := by
  cases hRun : x names with
  | ok v names' =>
      rcases h.of_ok hRun with ⟨w, hOther, hMade, -⟩
      rw [hOther]
      exact .ok (.some hMade)
  | error cause names' =>
      rcases h.of_error hRun with hRefusal | ⟨names'', hOther⟩
      · exact .refused hRefusal _
      · rw [hOther]
        exact .error cause

/- The kind of an error is that of its cause. -/
theorem mapError_kind
    {α : Type}
    (x : Except Error α) :
    x.mapError Error.kind =
      (x.mapError Error.cause).mapError Cause.kind := by
  cases x <;> rfl

/- Calls of the scanner answer alike too. -/
theorem Scanner.scan_answered
    [ByteSource σ]
    {E : ε → Prop}
    (hPlaces : Environment.Places E)
    (cfg : ScanSettings)
    (src : σ)
    (names : NameTable)
    {env : ε}
    (hEnv : E env) :
    Answered (Environment.Refuses E) (Scanner.Found E)
      ((scan cfg ⟨src, names, env⟩).1.mapError Error.cause)
      ((scan cfg
        ⟨src, names, Environment.Wrapped.mk env⟩).1.mapError
          Error.cause) := by
  have hRead :=
    readObject_echoed hPlaces cfg ⟨src, names, env, #[]⟩
      hEnv .nil
  rw [ScanState.wrapped_mk] at hRead
  unfold scan
  dsimp only
  generalize
    readObject cfg [] ⟨src, names, env, #[]⟩ = x at hRead ⊢
  generalize
    readObject cfg []
      ⟨src, names, Environment.Wrapped.mk env, #[]⟩ = y
      at hRead ⊢
  cases hRead with
  | ok _ hFound => exact .ok hFound
  | error cause st st' =>
      simp only [Except.mapError, cause_inToken]
      exact .error cause
  | refused hRefusal =>
      simp only [Except.mapError, cause_inToken]
      exact .refused hRefusal _

/- All that is heard of an environment remains in place. -/
theorem Environment.places_hears
    {env : ε}
    (hPlaced : ∀ v, Gives (Hears env) v → v.WellPlaced) :
    Places (Hears env) where
  comment text hHears := hHears.trans (hears_comment _ text)
  value hValue := hPlaced _ hValue

/- Whatever the interpreter hears, its cells are the same. -/
theorem Scope.heap_heard
    (s : Scope)
    (heard : List Bytes) :
    (heard.foldl Environment.comment s).heap = s.heap := by
  induction heard generalizing s with
  | nil => rfl
  | cons text heard ih => exact ih _

/-
  The interpreter gives nothing else if all its cells hold
  objects that are well placed, whatever it hears.
-/
theorem Scope.gives_placed
    {s : Scope}
    (hCells : ∀ c ∈ s.heap.cells, c.2.WellPlaced)
    {v : Object}
    (hGives : Environment.Gives (Environment.Hears s) v) :
    v.WellPlaced := by
  rcases hGives with
    ⟨s', ⟨heard, rfl⟩, hint, n, hint', hFind⟩
  rcases Scope.find_cell hFind with ⟨slot, hRead⟩
  have hMem := Heap.mem_of_read? hRead
  rw [Scope.heap_heard] at hMem
  exact hCells _ hMem

/-
  No composite in global memory refers to one in local memory.
  If all values of names are well placed, then so is every
  object that is scanned or decoded, and the strings and
  arrays in it that are new carry the attributes of what is
  made in the environment. A local value that would get into a
  global array makes the call fail.
-/
theorem Scanner.scan_decode_guarded
    [ByteSource σ]
    (cfg : ScanSettings)
    (src : σ)
    (data : Bytes)
    (names : NameTable)
    (env : ε)
    (hPlaced :
      ∀ v, Environment.Gives (Environment.Hears env) v →
        v.WellPlaced) :
    Guarded (Environment.Hears env)
        ((scan cfg ⟨src, names, env⟩).1.mapError Error.kind)
        ((scan cfg
          ⟨src, names, Environment.Wrapped.mk env⟩).1.mapError
            Error.kind) ∧
      Guarded (· = env)
        ((decoded
          (BinaryToken.decode env data names)).mapError
            Cause.kind)
        ((decoded
          (BinaryToken.decode (Environment.Wrapped.mk env)
            data names)).mapError Cause.kind) ∧
      Guarded (· = env)
        ((decoded (Sequence.read env data names)).mapError
          Cause.kind)
        ((decoded
          (Sequence.read (Environment.Wrapped.mk env) data
            names)).mapError Cause.kind) := by
  have hHere :
      ∀ v, Environment.Gives (· = env) v → v.WellPlaced := by
    rintro v ⟨_, rfl, hValue⟩
    exact hPlaced v ⟨_, .refl _, hValue⟩
  have hEchoes :=
    Environment.echoes_wrapped (E := (· = env)) rfl hHere
  refine ⟨?_, ?_, ?_⟩
  · have hScan :=
      scan_answered (Environment.places_hears hPlaced) cfg src
        names (.refl env)
    rw [mapError_kind, mapError_kind]
    exact hScan.guarded
  · exact ((BinaryToken.decode_echoes hEchoes data).decoded
      names).guarded
  · exact ((Sequence.read_echoes hEchoes data).decoded
      names).guarded

/- A local string is kept out of a global procedure. -/
theorem Scanner.scan_decode_guarded_string :
    ∃ (s : Scope) (names : NameTable) (v : Object),
      Environment.vm s = .globalVm ∧
        Environment.find s none ⟨0, #[code 'a'], none⟩ =
            some (v, none) ∧
          v.IsLocal ∧
            (scan {}
              ⟨Reader.ofList
                [0x7b, code '/', code '/', code 'a', 0x7d],
                names, s⟩).1.mapError Error.kind =
                  .error .invalidAccess := by
  let v : Object := .string #[code 'x'] {}
  let s : Scope :=
    ⟨{ Scope.empty.stack with
        vm := .globalVm
        user := ⟨[(⟨0, #[code 'a'], none⟩, ⟨0⟩)]⟩ },
      ⟨[(⟨0⟩, v)], 1⟩⟩
  let names : NameTable := (NameTable.empty.intern #[code 'a']).2
  have hCells : ∀ c ∈ s.heap.cells, c.2.WellPlaced := by
    intro c hc
    rw [List.mem_singleton.mp hc]
    exact .atom _ _
  let src : Reader :=
    .ofList [0x7b, code '/', code '/', code 'a', 0x7d]
  have hGuarded :=
    (scan_decode_guarded {} src #[] names s
      (fun _ => Scope.gives_placed hCells)).1
  have hFails :
      ((scan {} ⟨src, names, s⟩).1.mapError
        Error.kind).isOk = false := by
    decide +kernel
  have hOther :
      ((scan {}
        ⟨src, names, Environment.Wrapped.mk s⟩).1.mapError
          Error.kind).isOk = true := by
    decide +kernel
  refine ⟨s, names, v, rfl, rfl, ⟨rfl, rfl⟩, ?_⟩
  cases hScan :
      (scan {} ⟨src, names, s⟩).1.mapError Error.kind with
  | ok found =>
      rw [hScan] at hFails
      contradiction
  | error kind =>
      rcases hGuarded.error kind hScan with hSame | ⟨rfl, -⟩
      · rw [hSame] at hOther
        contradiction
      · rfl

end PostScript
