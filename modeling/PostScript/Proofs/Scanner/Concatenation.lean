import PostScript.Proofs.Scanner.Rendered
import PostScript.Proofs.Scanner.Tracking

/-
  This file shows that programs may be put one behind the
  other. Where a first text is scanned to its end, it may go
  on with a line feed and a second text, which is then scanned
  as if it stood alone, with the names and the environment
  that the first one has left.

  Key definitions include:
    * `Scanner.Rest.Over`

  Main results:
    * `Scanner.readObject_agree`
    * `Scanner.scan_passes`
    * `Scanner.scan_alike`
    * `Scanner.objectsAfter_cases`
    * `Scanner.objects_append`
-/

namespace PostScript

open ByteSource

variable {σ₁ σ₂ ε : Type}

namespace Scanner

variable {cfg : ScanSettings}

------------------------------------------------------------
-- Steps
------------------------------------------------------------

/-
  A step that neither answers with the end of the input nor
  leaves all procedures to go on.
-/
def Step.IsInside : Step → Prop
  | .answer r => r ≠ .ok none
  | .more outer => outer ≠ []

section Steps

variable [Environment ε]

/- A finished object is answered or put into a procedure. -/
theorem isInside_place
    (cfg : ScanSettings)
    (outer : OpenProcedures)
    (o : Object) :
    (place cfg outer o).IsInside := by
  unfold place
  split
  · exact nofun
  · split
    · exact List.cons_ne_nil _ _
    · exact nofun

/- Every step but the end of the input is of that kind. -/
theorem isInside_step
    (cfg : ScanSettings)
    (env : ε)
    (outer : OpenProcedures)
    (l : Lexeme)
    (h : l ≠ .ended ∨ outer ≠ []) :
    (step cfg env outer l).IsInside := by
  cases l with
  | object o => exact isInside_place cfg outer o
  | opening =>
      change (openProcedure cfg outer).IsInside
      unfold openProcedure
      split
      · exact List.cons_ne_nil _ _
      · exact nofun
  | closing =>
      change (closeProcedure cfg env outer).IsInside
      unfold closeProcedure
      split
      · exact nofun
      · split
        · exact isInside_place cfg _ _
        · exact nofun
  | ended =>
      cases outer with
      | nil => exact absurd rfl (h.resolve_left (absurd rfl ·))
      | cons elements rest => exact nofun

end Steps

------------------------------------------------------------
-- Ends
------------------------------------------------------------

open ScanState

section Ends

variable {σ : Type}
variable [ByteSource σ]
variable [Environment ε]

/- Inside a procedure the input does not end. -/
theorem readObject_ne_none
    {outer : OpenProcedures}
    (cfg : ScanSettings)
    (hOpen : outer ≠ [])
    (st : ScanState σ ε) :
    (readObject cfg outer st).1 ≠ .ok none := by
  fun_induction readObject cfg outer st with
  | case1 =>
      intro hNone
      contradiction
  | case2 outer st l st' hRead r hStep =>
      have hInside :=
        isInside_step cfg st'.env outer l (.inr hOpen)
      rw [hStep] at hInside
      exact hInside
  | case3 outer st l st' hRead outer' hStep ih =>
      have hInside :=
        isInside_step cfg st'.env outer l (.inr hOpen)
      rw [hStep] at hInside
      exact ih hInside

/- Where the input ends, the last piece was its end. -/
theorem read_of_none
    {st st' : ScanState σ ε}
    (h : readObject cfg [] st = (.ok none, st')) :
    Lexeme.read cfg false st = (.ok .ended, st') := by
  rw [readObject_step, List.isEmpty_nil, Bool.not_true] at h
  rcases hRead : Lexeme.read cfg false st with
    ⟨cause | l, st₁⟩
  · rw [hRead] at h
    cases h
  · rw [hRead] at h
    dsimp only at h
    by_cases hEnd : l = .ended
    · subst hEnd
      cases h
      rfl
    · have hInside :=
        isInside_step cfg st₁.env [] l (.inl hEnd)
      cases hStep : step cfg st₁.env [] l with
      | answer r =>
          rw [hStep] at h hInside
          exact absurd (congrArg Prod.fst h) hInside
      | more outer =>
          rw [hStep] at h hInside
          exact absurd (congrArg Prod.fst h)
            (readObject_ne_none cfg hInside st₁)

/- It ended behind blanks. -/
theorem skipBlanks_of_ended
    {nested : Bool}
    {st st' : ScanState σ ε}
    (h : Lexeme.read cfg nested st = (.ok .ended, st')) :
    Lexeme.skipBlanks cfg st = (.ok none, st') := by
  unfold Lexeme.read at h
  rcases hSkip : Lexeme.skipBlanks cfg st with
    ⟨cause | _ | first, st₁⟩
  · rw [hSkip] at h
    cases h
  · rw [hSkip] at h
    cases h
    rfl
  · rw [hSkip] at h
    exact absurd (congrArg Prod.fst h)
      (Lexeme.readFrom_ne_ended cfg nested first _)

/- Blanks at the end of the input leave no bytes of a token. -/
theorem skipBlanks_text
    {st st' : ScanState σ ε}
    (hText : st.text = #[])
    (h : Lexeme.skipBlanks cfg st = (.ok none, st')) :
    st'.text = #[] := by
  fun_induction Lexeme.skipBlanks cfg st with
  | case1 src names env text s hNext =>
      cases h
      exact hText
  | case2 => cases h
  | case3 => cases h
  | case4 _ _ _ _ _ _ _ _ _ _ _ _ ih => exact ih rfl h
  | case5 =>
      cases h
      exact hText
  | case6 _ _ _ _ _ _ _ _ _ _ ih => exact ih hText h
  | case7 => cases h

end Ends

------------------------------------------------------------
-- Objects
------------------------------------------------------------

variable [ByteSource σ₁]
variable [ByteSource σ₂]
variable [Environment ε]
variable {S Past : σ₁ → σ₂ → Prop}
variable {Gap : Cause → Prop}

/-
  Inside a procedure objects are read alike. Where the first
  text ends there, that is an error of its own.
-/
theorem readObject_agree
    (hTracks : Tracks S Past Gap)
    (cfg : ScanSettings)
    {outer : OpenProcedures}
    (hOpen : outer ≠ [])
    {st₁ : ScanState σ₁ ε}
    {st₂ : ScanState σ₂ ε}
    (hOver : Over (Together S Past) st₁ st₂) :
    Agree Gap (Over (Together S Past))
      (readObject cfg outer st₁) (readObject cfg outer st₂) := by
  fun_induction readObject cfg outer st₁
    generalizing st₂ with
  | case1 outer st₁ cause st₁' hRead =>
      have hPasses :=
        Lexeme.read_passes hTracks cfg (!outer.isEmpty) hOver
      rw [hRead] at hPasses
      rw [readObject_step outer st₂]
      generalize Lexeme.read cfg _ st₂ = x₂ at hPasses ⊢
      cases hPasses with
      | same _ hSame => exact .same _ hSame
      | gap hGap => exact .gap hGap _ _
  | case2 outer st₁ l st₁' hRead r hStep =>
      have hPasses :=
        Lexeme.read_passes hTracks cfg (!outer.isEmpty) hOver
      rw [hRead] at hPasses
      rw [readObject_step outer st₂]
      generalize Lexeme.read cfg _ st₂ = x₂ at hPasses ⊢
      cases hPasses with
      | same _ hSame =>
          dsimp only
          rw [hSame.env_eq, hStep]
          exact .same _ hSame
      | past hPast =>
          cases outer with
          | nil => exact absurd rfl hOpen
          | cons elements rest =>
              cases hStep
              exact .gap (hTracks.past hPast.source).1 _ _
  | case3 outer st₁ l st₁' hRead outer' hStep ih =>
      have hInside :=
        isInside_step cfg st₁'.env outer l (.inr hOpen)
      have hPasses :=
        Lexeme.read_passes hTracks cfg (!outer.isEmpty) hOver
      rw [hRead] at hPasses
      rw [hStep] at hInside
      rw [readObject_step outer st₂]
      generalize Lexeme.read cfg _ st₂ = x₂ at hPasses ⊢
      cases hPasses with
      | same _ hSame =>
          dsimp only
          rw [hSame.env_eq, hStep]
          exact ih hInside hSame
      | past =>
          exact absurd hStep
            (step_ended_ne_more cfg st₁'.env outer outer')

/- Outside of procedures the first text may just end. -/
theorem readObject_passes
    (hTracks : Tracks S Past Gap)
    (cfg : ScanSettings)
    {st₁ : ScanState σ₁ ε}
    {st₂ : ScanState σ₂ ε}
    (hOver : Over (Together S Past) st₁ st₂) :
    Passes Gap (Over (Together S Past)) (Over Past)
      (cfg.controlDEnds = true ∨ ¬ Gap .malformed) none
      (readObject cfg []) (readObject cfg [] st₁)
      (readObject cfg [] st₂) := by
  have hPasses := Lexeme.read_passes hTracks cfg false hOver
  rw [readObject_step [] st₁, readObject_step [] st₂,
    List.isEmpty_nil, Bool.not_true]
  generalize Lexeme.read cfg false st₁ = x₁ at hPasses ⊢
  generalize hSecond : Lexeme.read cfg false st₂ = x₂
    at hPasses ⊢
  cases hPasses with
  | gap hGap => exact .gap hGap _ _
  | @past st₁' st₂' hPast =>
      have hAgain : readObject cfg [] st₂' = _ :=
        readObject_step [] st₂'
      rw [List.isEmpty_nil, Bool.not_true] at hAgain
      rw [← hAgain]
      exact .past hPast
  | @same result st₁' st₂' hSame hLast =>
      cases result with
      | error cause => exact .failed _ hSame
      | ok l =>
          dsimp only
          rw [hSame.env_eq]
          by_cases hEnd : l = .ended
          · subst hEnd
            exact .same _ hSame (fun _ => hLast rfl)
          · have hInside :=
              isInside_step cfg st₁'.env [] l (.inl hEnd)
            cases hStep : step cfg st₁'.env [] l with
            | answer r =>
                rw [hStep] at hInside
                exact .same _ hSame
                  (fun hLast => absurd hLast hInside)
            | more outer =>
                rw [hStep] at hInside
                exact
                  (readObject_agree hTracks cfg hInside
                    hSame).passes
                      (readObject_ne_none cfg hInside _)

------------------------------------------------------------
-- Calls
------------------------------------------------------------

/- What is left differs in its sources alone. -/
inductive Rest.Over
    (T : σ₁ → σ₂ → Prop) :
    Rest σ₁ ε → Rest σ₂ ε → Prop where
  | intro
      {s₁ : σ₁}
      {s₂ : σ₂}
      (hSame : T s₁ s₂)
      (names : NameTable)
      (env : ε) :
      Rest.Over T ⟨s₁, names, env⟩ ⟨s₂, names, env⟩

/- An error is reported for its own cause. -/
theorem cause_inToken
    (cause : Cause)
    (text : Bytes) :
    (Error.inToken cause text).cause = cause := by
  unfold Error.inToken
  split <;> rfl

/-
  Calls are answered alike, or the first text has ended and
  the call goes on behind it.
-/
theorem scan_passes
    (hTracks : Tracks S Past Gap)
    (cfg : ScanSettings)
    {r₁ : Rest σ₁ ε}
    {r₂ : Rest σ₂ ε}
    (hOver : Rest.Over (Together S Past) r₁ r₂) :
    Passes (fun e : Error => Gap e.cause)
      (Rest.Over (Together S Past)) (Rest.Over Past)
      (cfg.controlDEnds = true ∨ ¬ Gap .malformed) none
      (scan cfg) (scan cfg r₁) (scan cfg r₂) := by
  cases hOver with
  | @intro s₁ s₂ hTogether names env =>
      have hPasses :=
        readObject_passes hTracks cfg
          (ScanState.Over.intro hTogether names env #[])
      unfold scan
      dsimp only
      generalize hFirst :
        readObject cfg [] ⟨s₁, names, env, #[]⟩ = x₁
        at hPasses ⊢
      generalize readObject cfg [] ⟨s₂, names, env, #[]⟩ = x₂
        at hPasses ⊢
      cases hPasses with
      | gap hGap st₁ =>
          refine .gap ?_ _ _
          rw [cause_inToken]
          exact hGap
      | same result hSame hLast =>
          cases hSame with
          | intro hSame names env text =>
              cases result with
              | error cause =>
                  exact .failed _ (.intro hSame _ _)
              | ok o =>
                  refine Passes.same (.ok o)
                    (Rest.Over.intro hSame _ _) ?_
                  intro hNone
                  cases hNone
                  exact hLast rfl
      | past hPast =>
          have hText :=
            skipBlanks_text rfl
              (skipBlanks_of_ended (read_of_none hFirst))
          cases hPast with
          | intro hPast names env text =>
              cases hText
              have hOver := Rest.Over.intro hPast names env
              exact Passes.past hOver

/- Sources that never part are scanned alike. -/
theorem scan_alike
    (hTracks : Tracks S (fun _ _ => False) (fun _ => False))
    (cfg : ScanSettings)
    {s₁ : σ₁}
    {s₂ : σ₂}
    (hSame : S s₁ s₂)
    (names : NameTable)
    (env : ε) :
    ∃ result t₁ t₂ names' env',
      scan cfg ⟨s₁, names, env⟩ = (result, ⟨t₁, names', env'⟩) ∧
        scan cfg ⟨s₂, names, env⟩ =
            (result, ⟨t₂, names', env'⟩) ∧
          S t₁ t₂ := by
  have hPasses :=
    scan_passes hTracks cfg (.intro (.inl hSame) names env)
  generalize scan cfg ⟨s₁, names, env⟩ = x₁ at hPasses ⊢
  generalize scan cfg ⟨s₂, names, env⟩ = x₂ at hPasses ⊢
  cases hPasses with
  | gap hGap => exact hGap.elim
  | past hPast =>
      cases hPast with
      | intro hPast => exact hPast.elim
  | same result hBoth =>
      rcases hBoth with @⟨t₁, t₂, hSame | hPast, names', env'⟩
      · exact ⟨result, t₁, t₂, names', env', rfl, rfl, hSame⟩
      · exact hPast.elim

------------------------------------------------------------
-- Programs
------------------------------------------------------------

/-
  Programs with the same objects and the same failure, or of
  which the first ends and the second goes on behind it, or of
  which the first fails by itself.
-/
inductive Objects.Passes
    (cfg : ScanSettings)
    (S Past : σ₁ → σ₂ → Prop)
    (Gap : Cause → Prop) :
    Objects σ₁ ε → Objects σ₂ ε → Prop where
  | same
      (objects : List Object)
      (failure : Option Error)
      {r₁ : Rest σ₁ ε}
      {r₂ : Rest σ₂ ε}
      (hSame : Rest.Over (Together S Past) r₁ r₂)
      (hLast :
        failure = none →
          cfg.controlDEnds = true ∨ ¬ Gap .malformed) :
      Objects.Passes cfg S Past Gap ⟨objects, failure, r₁⟩
        ⟨objects, failure, r₂⟩
  | past
      (objects : List Object)
      {r₁ : Rest σ₁ ε}
      {r₂ : Rest σ₂ ε}
      (hPast : Rest.Over Past r₁ r₂) :
      Objects.Passes cfg S Past Gap ⟨objects, none, r₁⟩
        (objectsAfter cfg objects.toArray r₂)
  | gap
      (objects : List Object)
      {e : Error}
      (hGap : Gap e.cause)
      (r₁ : Rest σ₁ ε)
      (x₂ : Objects σ₂ ε) :
      Objects.Passes cfg S Past Gap ⟨objects, some e, r₁⟩ x₂

/- Programs are scanned alike, by induction on the first. -/
theorem objectsAfter_passes
    (hTracks : Tracks S Past Gap)
    (cfg : ScanSettings)
    (done : Array Object)
    {r₁ : Rest σ₁ ε}
    {r₂ : Rest σ₂ ε}
    (hOver : Rest.Over (Together S Past) r₁ r₂) :
    Objects.Passes cfg S Past Gap (objectsAfter cfg done r₁)
      (objectsAfter cfg done r₂) := by
  fun_induction objectsAfter cfg done r₁
    generalizing r₂ with
  | case1 done r₁ r₁' hScan =>
      have hPasses := scan_passes hTracks cfg hOver
      rw [hScan] at hPasses
      generalize hSecond : scan cfg r₂ = x₂ at hPasses
      cases hPasses with
      | same _ hSame hLast =>
          rw [objectsAfter_none done hSecond]
          exact .same _ _ hSame (fun _ => hLast rfl)
      | @past _ s₂ hPast =>
          rw [objectsAfter_step, hSecond, ← objectsAfter_step]
          exact .past done.toList hPast
  | case2 done r₁ e r₁' hScan =>
      have hPasses := scan_passes hTracks cfg hOver
      rw [hScan] at hPasses
      generalize hSecond : scan cfg r₂ = x₂ at hPasses
      cases hPasses with
      | same _ hSame =>
          rw [objectsAfter_step, hSecond]
          exact .same _ _ hSame nofun
      | gap hGap => exact .gap _ hGap _ _
  | case3 done r₁ o r₁' hScan ih =>
      have hPasses := scan_passes hTracks cfg hOver
      rw [hScan] at hPasses
      generalize hSecond : scan cfg r₂ = x₂ at hPasses
      cases hPasses with
      | same _ hSame =>
          rw [objectsAfter_some done hSecond]
          exact ih hSame

/- Objects that were read before come first. -/
theorem objectsAfter_append
    {σ : Type}
    [ByteSource σ]
    (cfg : ScanSettings)
    (done : Array Object)
    (r : Rest σ ε) :
    objectsAfter cfg done r =
      ⟨done.toList ++ (objects cfg r).objects,
        (objects cfg r).failure, (objects cfg r).rest⟩ := by
  have hMore :
      ∀ (more : Array Object) (r : Rest σ ε),
        objectsAfter cfg (done ++ more) r =
          ⟨done.toList ++ (objectsAfter cfg more r).objects,
            (objectsAfter cfg more r).failure,
            (objectsAfter cfg more r).rest⟩ := by
    intro more r
    fun_induction objectsAfter cfg more r with
    | case1 more r r' hScan =>
        rw [objectsAfter_none _ hScan, Array.toList_append]
    | case2 more r e r' hScan =>
        rw [objectsAfter_step, hScan, Array.toList_append]
    | case3 more r o r' hScan ih =>
        rw [objectsAfter_some _ hScan, ← ih, Array.push_append]
  have hEmpty := hMore #[] r
  rw [Array.append_empty] at hEmpty
  exact hEmpty

/-
  A text that is scanned without an error may be followed by a
  line feed and any other text. Then the objects of the first
  text come first, and all others, the failure if there is
  one, and what is left of the names and the environment, with
  all comments that it has heard, are those that the second
  text alone leads to behind the first.
-/
theorem objects_append
    {σ : Type}
    [ByteSource σ]
    {cfg : ScanSettings}
    (hEnds : cfg.controlDEnds = false)
    {a b : List UInt8}
    {srcA srcB src : σ}
    (hA : Supplies srcA a)
    (hB : Supplies srcB b)
    (hBoth : Supplies src (a ++ 0x0a :: b))
    {names : NameTable}
    {env : ε}
    {os : List Object}
    {r : Rest σ ε}
    (hObjects :
      objects cfg ⟨srcA, names, env⟩ = ⟨os, none, r⟩) :
    (objects cfg ⟨src, names, env⟩).objects =
        os ++ (objects cfg ⟨srcB, r.names, r.env⟩).objects ∧
      (objects cfg ⟨src, names, env⟩).failure =
        (objects cfg ⟨srcB, r.names, r.env⟩).failure ∧
      (objects cfg ⟨src, names, env⟩).rest.names =
        (objects cfg ⟨srcB, r.names, r.env⟩).rest.names ∧
      (objects cfg ⟨src, names, env⟩).rest.env =
        (objects cfg ⟨srcB, r.names, r.env⟩).rest.env := by
  have hNever :
      ¬ (cfg.controlDEnds = true ∨
        ¬ (fun _ : Cause => True) .malformed) := by
    rintro (hSet | hNot)
    · rw [hEnds] at hSet
      contradiction
    · exact hNot trivial
  -- The first text ends, and the second source goes on.
  have hFirst :=
    objectsAfter_passes (tracks_append b) cfg #[]
      (.intro (.inl ⟨a, hA, hBoth⟩) names env)
  change Objects.Passes _ _ _ _ (objects cfg _) (objects cfg _)
    at hFirst
  rw [hObjects] at hFirst
  generalize objects cfg ⟨src, names, env⟩ = x at hFirst ⊢
  cases hFirst with
  | same _ _ _ hLast => exact absurd (hLast rfl) hNever
  | past _ hPast =>
      rcases hPast with @⟨_, s, ⟨-, hMore⟩, names', env'⟩
      -- Behind it, the second source gives the second text.
      have hSecond :=
        objectsAfter_passes tracks_same cfg #[]
          (.intro (.inl ⟨b, hB, hMore⟩) names' env')
      change Objects.Passes _ _ _ _ (objects cfg _)
        (objects cfg _) at hSecond
      rw [objectsAfter_append]
      generalize objects cfg ⟨srcB, names', env'⟩ = x
        at hSecond ⊢
      generalize objects cfg ⟨s, names', env'⟩ = y
        at hSecond ⊢
      cases hSecond with
      | same _ _ hSame =>
          cases hSame
          exact ⟨rfl, rfl, rfl, rfl⟩
      | past _ hPast =>
          cases hPast with
          | intro hPast => exact hPast.elim
      | gap _ hGap => exact hGap.elim

/- A number, and a name behind it. -/
theorem objects_append_number :
    ∃ os r,
      objects {}
          ⟨Reader.ofList [code '1'], NameTable.empty, ()⟩ =
        ⟨os, none, r⟩ ∧
      (objects {}
          ⟨Reader.ofList [code '1', 0x0a, code '/', code 'a'],
            NameTable.empty, ()⟩).objects =
        os ++
          (objects {}
            ⟨Reader.ofList [code '/', code 'a'], r.names,
              r.env⟩).objects := by
  have hInteger : Renders {} (.integer 1) [code '1'] :=
    .integer (Numeral.unsigned
      ⟨by decide, List.all_eq_true.mp rfl⟩) (by decide)
  have hText : RendersAll {} false [.integer 1] [code '1'] :=
    .cons .nil (absurd · Bool.false_ne_true) hInteger
      (.nil .nil)
  rcases objectsAfter_trees NameTable.empty #[] hText
      (by decide) (by decide) staysLocal_unit
      (Reader.supplies (Reader.ofList [code '1'])) with
    ⟨os, r, hObjects, -⟩
  exact ⟨os, r, hObjects,
    (objects_append rfl (Reader.supplies _)
      (Reader.supplies _) (Reader.supplies _) hObjects).1⟩

end Scanner

end PostScript
