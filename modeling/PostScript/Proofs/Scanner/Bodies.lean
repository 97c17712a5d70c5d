import PostScript.Proofs.Scanner.Concatenation
import PostScript.Proofs.Scanner.Manner

/-
  This file shows that the body of a procedure is scanned like
  a text of its own. Where a text is scanned to its end at the
  top level, the same objects become elements when it stands
  in braces, with the same names and the same comments.

  Key definitions include:
    * `ScanSettings.deeper`
    * `Environment.AllocatesLocally`
    * `ScanState.Beside`

  Main results:
    * `Lexeme.read_inside`
    * `Scanner.step_inside`
    * `Scanner.readObject_inside`
    * `Scanner.readObject_body`
    * `Scanner.scan_braced`
-/

namespace PostScript

open ByteSource

variable {σ σ₁ σ₂ ε : Type}

------------------------------------------------------------
-- Settings and Environments
------------------------------------------------------------

/- The settings that leave room for `n` more procedures. -/
def ScanSettings.deeper
    (cfg : ScanSettings)
    (n : Nat) : ScanSettings :=
  { cfg with procedureDepth := cfg.procedureDepth + n }

variable [Environment ε]

/- New objects are local, whatever comments are heard. -/
def Environment.AllocatesLocally
    (env : ε) : Prop :=
  ∀ env', Environment.Hears env env' →
    Environment.vm env' = .localVm

/- Any objects may be put into a local array. -/
theorem makeArray_of_local
    {env : ε}
    {es : List Object}
    (executable : Bool)
    (hLocal : Environment.vm env = .localVm)
    (hLength : es.length ≤ maxArrayLength) :
    makeArray env executable es =
      .ok (.array es
        { Environment.newAttrs env with
          executable := executable }) := by
  apply makeArray_of_legal executable hLength
  intro e he
  simp [Object.isIllegalIn, hLocal]

/- Scanning changes the environment by comments alone. -/
def Scanner.hearing : Scanner.Manner ε where
  changes _ env _ env' := Environment.Hears env env'
  starts _ _ := True
  gives _ _ _ := True
  refl := .refl _
  trans := .trans
  starts_of_changes _ _ := trivial
  gives_of_changes _ _ := trivial
  comment text := Environment.hears_comment _ text
  intern _ := .refl _
  load _ _ := .refl _
  name _ _ := trivial
  value _ _ _ := trivial
  string _ := trivial
  number _ := trivial
  token {_ _ t env _ _ _ token} _ _ := by
    unfold Goes
    split <;> exact ⟨.refl env, trivial⟩
  procedure _ _ := trivial

------------------------------------------------------------
-- Pieces
------------------------------------------------------------

/- States that differ in their sources and in what is held. -/
structure ScanState.Beside
    (T : σ₁ → σ₂ → Prop)
    (st₁ : ScanState σ₁ ε)
    (st₂ : ScanState σ₂ ε) : Prop where
  source : T st₁.source st₂.source
  names : st₂.names = st₁.names
  env : st₂.env = st₁.env

open ScanState

namespace Lexeme

section Single

variable [ByteSource σ]

/- Blanks are skipped however deep procedures may nest. -/
theorem skipBlanks_deeper
    (cfg : ScanSettings)
    (n : Nat)
    (st : ScanState σ ε) :
    skipBlanks (cfg.deeper n) st = skipBlanks cfg st := by
  have hLimit :
      (cfg.deeper n).stringLength = cfg.stringLength :=
    rfl
  have hEnds :
      ∀ b, isEndMark (cfg.deeper n) b = isEndMark cfg b :=
    fun _ => rfl
  fun_induction skipBlanks cfg st with
  | case1 src names env text s hNext
  | case2 src names env text m s hNext =>
      rw [skipBlanks_eq, hNext]
  | case3 src names env text b s hNext hPercent cause
      gathered s' hComment =>
      rw [skipBlanks_byte _ _ _ _ hNext, if_pos hPercent,
        hLimit, hComment]
  | case4 src names env text b s hNext hPercent _ gathered s'
      hComment ih =>
      rw [skipBlanks_byte _ _ _ _ hNext, if_pos hPercent,
        hLimit, hComment]
      exact ih
  | case5 src names env text b s hNext hPercent hMark =>
      rw [skipBlanks_byte _ _ _ _ hNext, if_neg hPercent,
        hEnds, if_pos hMark]
  | case6 src names env text b s hNext hPercent hMark hWhite
      ih =>
      rw [skipBlanks_byte _ _ _ _ hNext, if_neg hPercent,
        hEnds, if_neg hMark, if_pos hWhite]
      exact ih
  | case7 src names env text b s hNext hPercent hMark
      hWhite =>
      rw [skipBlanks_byte _ _ _ _ hNext, if_neg hPercent,
        hEnds, if_neg hMark, if_neg hWhite]

/- So is the piece behind them. -/
theorem read_deeper
    (cfg : ScanSettings)
    (n : Nat)
    (nested : Bool)
    (st : ScanState σ ε) :
    read (cfg.deeper n) nested st = read cfg nested st := by
  unfold read
  rw [skipBlanks_deeper]
  rfl

/-
  Blanks are skipped whatever bytes are held. By induction on
  what is left.
-/
theorem skipBlanks_inside
    (cfg : ScanSettings)
    (n : Nat)
    (src : σ)
    (names : NameTable)
    (env : ε)
    (text text' : Bytes) :
    ∃ held,
      skipBlanks (cfg.deeper n) ⟨src, names, env, text'⟩ =
        ((skipBlanks cfg ⟨src, names, env, text⟩).1,
          { (skipBlanks cfg ⟨src, names, env, text⟩).2 with
            text := held }) := by
  rw [skipBlanks_deeper]
  generalize hStart : ScanState.mk src names env text = st
  fun_induction skipBlanks cfg st
    generalizing src env text text' with
  | case1 _ _ _ _ s hNext | case2 _ _ _ _ m s hNext =>
      cases hStart
      exact ⟨text', by rw [skipBlanks_eq, hNext]⟩
  | case3 _ _ _ _ b s hNext hSign cause gathered s' hComment =>
      cases hStart
      exact ⟨gathered, by
        simp [skipBlanks_eq, hNext, hSign, hComment]⟩
  | case4 _ _ _ _ b s hNext hSign _ gathered s' hComment ih =>
      cases hStart
      rw [skipBlanks_byte _ _ _ _ hNext, if_pos hSign,
        hComment]
      exact ih _ _ _ #[] rfl
  | case5 _ _ _ _ b s hNext hSign hMark
  | case7 _ _ _ _ b s hNext hSign hMark hWhite =>
      cases hStart
      exact ⟨text', by
        simp [skipBlanks_eq, *]⟩
  | case6 _ _ _ _ b s hNext hSign hMark hWhite ih =>
      cases hStart
      rw [skipBlanks_byte _ _ _ _ hNext, if_neg hSign,
        if_neg hMark, if_pos hWhite]
      exact ih _ _ _ _ rfl

/- A piece that may stand outside may stand in a procedure. -/
theorem readFrom_inside
    {cfg : ScanSettings}
    {nested : Bool}
    {first : UInt8}
    {st st' : ScanState σ ε}
    {l : Lexeme}
    (n : Nat)
    (h : readFrom cfg nested first st = (.ok l, st')) :
    readFrom (cfg.deeper n) true first st = (.ok l, st') := by
  by_cases hClosing : first = 0x7d ∧ nested = false
  · rcases hClosing with ⟨rfl, rfl⟩
    cases h
  · have hNested :
        (first == 0x7d && true) = (first == 0x7d && nested) := by
      cases nested <;> simp_all
    unfold readFrom at h ⊢
    rw [hNested]
    exact h

/- So a piece is read in a procedure as it is outside. -/
theorem read_inside
    {cfg : ScanSettings}
    {nested : Bool}
    {st st' : ScanState σ ε}
    {l : Lexeme}
    (n : Nat)
    (text : Bytes)
    (h : read cfg nested st = (.ok l, st')) :
    ∃ held,
      read (cfg.deeper n) true { st with text := text } =
        (.ok l, { st' with text := held }) := by
  rcases st with ⟨src, names, env, before⟩
  rcases skipBlanks_inside cfg n src names env before text with
    ⟨held, hSkip⟩
  unfold read at h ⊢
  rw [hSkip]
  rcases hBefore : skipBlanks cfg ⟨src, names, env, before⟩ with
    ⟨cause | _ | first, st₁⟩
  · simp [hBefore] at h
  · simp [hBefore] at h
    exact ⟨held, by simp [h.1.symm, h.2]⟩
  · simp only [hBefore] at h
    exact ⟨st'.text, readFrom_inside n h⟩

end Single

section Both

variable [ByteSource σ₁]
variable [ByteSource σ₂]
variable {S Past : σ₁ → σ₂ → Prop}
variable {Gap : Cause → Prop}
variable {cfg : ScanSettings}
variable {nested : Bool}
variable {st₁ st₁' : ScanState σ₁ ε}
variable {st₂ : ScanState σ₂ ε}

/-
  The first text is read outside, and the second in a
  procedure. Where the first goes on, both do so alike, and
  where it ends, the next piece of the second is read.
-/
theorem read_beside
    {l : Lexeme}
    (hTracks : Tracks S Past Gap)
    (hEnds :
      ¬ (cfg.controlDEnds = true ∨ ¬ Gap .malformed))
    (n : Nat)
    (hBeside : st₁.Beside (Together S Past) st₂)
    (hRead : read cfg nested st₁ = (.ok l, st₁')) :
    (l ≠ .ended ∧
      ∃ st₂', read (cfg.deeper n) true st₂ = (.ok l, st₂') ∧
        st₁'.Beside (Together S Past) st₂') ∨
      (l = .ended ∧
        ∃ st₂',
          read (cfg.deeper n) true st₂ =
              read (cfg.deeper n) true st₂' ∧
            st₁'.Beside Past st₂') := by
  rcases st₂ with ⟨s₂, names, env, text⟩
  rcases hBeside with ⟨hSource, hNames, hEnv⟩
  dsimp only at hSource hNames hEnv
  subst hNames hEnv
  rcases read_inside n text hRead with ⟨held, hInside⟩
  have hPasses :=
    read_passes hTracks (cfg.deeper n) true
      (Over.intro hSource st₁.names st₁.env text)
  rw [hInside] at hPasses
  generalize read (cfg.deeper n) true
    ⟨s₂, st₁.names, st₁.env, text⟩ = x₂ at hPasses ⊢
  generalize hFirst : ({ st₁' with text := held } :
    ScanState σ₁ ε) = first at hPasses
  cases hPasses with
  | same _ hSame hLast =>
      refine .inl ⟨?_, ?_⟩
      · rintro rfl
        exact hEnds (hLast rfl)
      · cases hSame with
        | intro hSame names env text =>
            cases hFirst
            exact ⟨_, rfl, hSame, rfl, rfl⟩
  | past hPast =>
      refine .inr ⟨rfl, ?_⟩
      cases hPast with
      | intro hPast names env text =>
          cases hFirst
          exact ⟨_, rfl, hPast, rfl, rfl⟩

end Both

end Lexeme

namespace Scanner

variable {cfg : ScanSettings}

------------------------------------------------------------
-- Steps
------------------------------------------------------------

section Steps

variable {env : ε}
variable {outer outer' : OpenProcedures}

/- Elements are placed as if no procedures were around. -/
theorem place_inside
    (below : OpenProcedures)
    {o : Object}
    (h : place cfg outer o = .more outer') :
    place (cfg.deeper below.length) (outer ++ below) o =
      .more (outer' ++ below) := by
  cases outer with
  | nil => cases h
  | cons elements rest =>
      unfold place at h ⊢
      dsimp only [List.cons_append] at h ⊢
      by_cases hRoom : elements.size < cfg.arrayLength
      · rw [if_pos hRoom] at h
        cases h
        exact if_pos hRoom
      · rw [if_neg hRoom] at h
        cases h

/- An object without procedures around comes out. -/
theorem outer_of_place
    {o o' : Object}
    (h : place cfg outer o = .answer (.ok (some o'))) :
    outer = [] ∧ o = o' := by
  cases outer with
  | nil =>
      cases h
      exact ⟨rfl, rfl⟩
  | cons elements rest =>
      unfold place at h
      dsimp only at h
      split at h <;> cases h

/- A procedure that is closed has been made. -/
theorem closeProcedure_cases
    {s : Step}
    (hStep : closeProcedure cfg env outer = s)
    (hOk : ∀ cause, s ≠ .answer (.error cause)) :
    ∃ elements rest o,
      outer = elements :: rest ∧
        makeArray env true elements.toList = .ok o ∧
          place cfg rest o = s := by
  subst hStep
  cases outer with
  | nil => exact absurd rfl (hOk .malformed)
  | cons elements rest =>
      cases hMake : makeArray env true elements.toList with
      | error cause =>
          refine absurd ?_ (hOk cause)
          simp [closeProcedure, hMake]
      | ok o =>
          refine ⟨elements, rest, o, rfl, hMake, ?_⟩
          simp [closeProcedure, hMake]

/- A step that goes on does so with procedures around it. -/
theorem step_inside
    (below : OpenProcedures)
    {l : Lexeme}
    (h : step cfg env outer l = .more outer') :
    step (cfg.deeper below.length) env (outer ++ below) l =
      .more (outer' ++ below) := by
  cases l with
  | object o => exact place_inside below h
  | opening =>
      unfold step openProcedure at h ⊢
      dsimp only at h ⊢
      by_cases hDepth : outer.length < cfg.procedureDepth
      · rw [if_pos hDepth] at h
        cases h
        refine if_pos ?_
        rw [List.length_append]
        exact Nat.add_lt_add_right hDepth _
      · rw [if_neg hDepth] at h
        cases h
  | closing =>
      rcases closeProcedure_cases h (fun _ => nofun) with
        ⟨elements, rest, o, rfl, hMake, hPlace⟩
      have hInside := place_inside below hPlace
      simpa [step, closeProcedure, hMake] using hInside
  | ended => exact absurd h (step_ended_ne_more cfg env _ _)

/- A step that gives an object puts it into what is around. -/
theorem step_object_inside
    (below : OpenProcedures)
    {l : Lexeme}
    {o : Object}
    (h : step cfg env outer l = .answer (.ok (some o))) :
    step (cfg.deeper below.length) env (outer ++ below) l =
      place (cfg.deeper below.length) below o := by
  cases l with
  | object o' =>
      rcases outer_of_place h with ⟨rfl, rfl⟩
      rfl
  | opening =>
      unfold step openProcedure at h
      dsimp only at h
      split at h <;> cases h
  | closing =>
      rcases closeProcedure_cases h (fun _ => nofun) with
        ⟨elements, rest, o', rfl, hMake, hPlace⟩
      rcases outer_of_place hPlace with ⟨rfl, rfl⟩
      simp [step, closeProcedure, hMake]
  | ended => exact absurd h (step_ended_ne_object cfg env _ _)

end Steps

------------------------------------------------------------
-- Objects
------------------------------------------------------------

section Objects

variable [ByteSource σ₁]
variable [ByteSource σ₂]
variable {S Past : σ₁ → σ₂ → Prop}
variable {Gap : Cause → Prop}

/-
  An object that is read outside is read in a procedure, and
  put there. By induction on its pieces.
-/
theorem readObject_inside
    {outer : OpenProcedures}
    {st₁ st₁' : ScanState σ₁ ε}
    {st₂ : ScanState σ₂ ε}
    {o : Object}
    (hTracks : Tracks S Past Gap)
    (hEnds :
      ¬ (cfg.controlDEnds = true ∨ ¬ Gap .malformed))
    {below : OpenProcedures}
    (hBelow : below ≠ [])
    (hBeside : st₁.Beside (Together S Past) st₂)
    (hRead :
      readObject cfg outer st₁ = (.ok (some o), st₁')) :
    ∃ st₂',
      readObject (cfg.deeper below.length) (outer ++ below)
          st₂ =
        follow (cfg.deeper below.length)
          (place (cfg.deeper below.length) below o) st₂' ∧
        st₁'.Beside (Together S Past) st₂' := by
  have hNested :
      ∀ outer : OpenProcedures,
        (!(outer ++ below).isEmpty) = true := by
    simp [hBelow]
  fun_induction readObject cfg outer st₁
    generalizing st₂ with
  | case1 => cases hRead
  | case2 outer st₁ l st₁'' hPiece r hStep =>
      cases hRead
      rcases Lexeme.read_beside hTracks hEnds below.length
          hBeside hPiece with
        ⟨-, st₂', hPiece₂, hBeside'⟩ | ⟨rfl, -⟩
      · refine ⟨st₂', ?_, hBeside'⟩
        rw [readObject_step, hNested, hPiece₂]
        dsimp only
        rw [hBeside'.env, step_object_inside below hStep]
      · exact absurd hStep (step_ended_ne_object cfg _ _ _)
  | case3 outer st₁ l st₁'' hPiece outer' hStep ih =>
      rcases Lexeme.read_beside hTracks hEnds below.length
          hBeside hPiece with
        ⟨-, st₂', hPiece₂, hBeside'⟩ | ⟨rfl, -⟩
      · rw [readObject_step, hNested, hPiece₂]
        dsimp only
        rw [hBeside'.env, step_inside below hStep]
        exact ih hBeside' hRead
      · exact absurd hStep (step_ended_ne_more cfg _ _ _)

/-
  A text whose objects are all read outside is read as further
  elements in a procedure. By induction on the objects: each
  call is one element, and behind the last of them the second
  text goes on.
-/
theorem readObject_body
    {done : Array Object}
    {r₁ r : Rest σ₁ ε}
    {xs : List Object}
    (hTracks : Tracks S Past Gap)
    (hEnds :
      ¬ (cfg.controlDEnds = true ∨ ¬ Gap .malformed))
    (below : OpenProcedures)
    (st₂ : ScanState σ₂ ε)
    (hBeside :
      (ScanState.mk r₁.source r₁.names r₁.env #[]).Beside
        (Together S Past) st₂)
    (hObjects : objectsAfter cfg done r₁ = ⟨xs, none, r⟩)
    (hRoom : xs.length ≤ cfg.arrayLength) :
    ∃ st₂',
      readObject (cfg.deeper (below.length + 1))
          (done :: below) st₂ =
        readObject (cfg.deeper (below.length + 1))
          (xs.toArray :: below) st₂' ∧
        (ScanState.mk r.source r.names r.env #[]).Beside Past
          st₂' := by
  fun_induction objectsAfter cfg done r₁
    generalizing st₂ with
  | case1 done r₁ r' hScan =>
      cases hObjects
      rcases readObject_of_scan hScan with ⟨text, hRead⟩
      rcases Lexeme.read_beside hTracks hEnds
          (below.length + 1) hBeside (read_of_none hRead) with
        ⟨hNot, -⟩ | ⟨-, st₂', hSame, hPast⟩
      · exact absurd rfl hNot
      · refine ⟨st₂', ?_, hPast.source, hPast.names,
          hPast.env⟩
        rw [readObject_step _ st₂, readObject_step _ st₂']
        simp only [List.isEmpty_cons, Bool.not_false, hSame]
  | case2 => cases hObjects
  | case3 done r₁ o r' hScan ih =>
      rcases readObject_of_scan hScan with ⟨text, hRead⟩
      rcases readObject_inside hTracks hEnds
          (List.cons_ne_nil done below) hBeside hRead with
        ⟨st₂', hOne, hBeside'⟩
      have hAll := congrArg Objects.objects hObjects
      rw [objectsAfter_append] at hAll
      have hPlace :
          done.size <
            (cfg.deeper (below.length + 1)).arrayLength := by
        have hLength := congrArg List.length hAll
        simp at hLength
        dsimp only [ScanSettings.deeper]
        omega
      rw [List.nil_append, List.length_cons] at hOne
      rw [hOne, place_more o hPlace]
      exact ih st₂'
        ⟨hBeside'.source, hBeside'.names, hBeside'.env⟩
        hObjects

end Objects

------------------------------------------------------------
-- Procedures
------------------------------------------------------------

section Procedures

variable [ByteSource σ]

/- A piece begins with the byte of a token that comes first. -/
theorem read_token
    {src : σ}
    {b : UInt8}
    {rest : List UInt8}
    (nested : Bool)
    (names : NameTable)
    (env : ε)
    (text : Bytes)
    (hBegins : Lexeme.BeginsToken cfg b)
    (hSource : Supplies src (b :: rest)) :
    ∃ s,
      Lexeme.read cfg nested ⟨src, names, env, text⟩ =
          Lexeme.readFrom cfg nested b ⟨s, names, env, #[]⟩ ∧
        Supplies s rest := by
  rcases Lexeme.skipBlanks_token names env text hBegins
      hSource with
    ⟨s, hSkip, hRest⟩
  refine ⟨s, ?_, hRest⟩
  rw [Lexeme.read, hSkip]

/- A brace is read as a piece of its own. -/
theorem read_brace
    (cfg : ScanSettings)
    {src : σ}
    {rest : List UInt8}
    (nested : Bool)
    (names : NameTable)
    (env : ε)
    (text : Bytes)
    (hSource : Supplies src (0x7b :: rest)) :
    ∃ s,
      Lexeme.read cfg nested ⟨src, names, env, text⟩ =
          (.ok .opening, ⟨s, names, env, #[]⟩) ∧
        Supplies s rest :=
  read_token nested names env text
    (Lexeme.beginsToken_brace cfg (.inl rfl)) hSource

/- It opens a procedure without elements. -/
theorem step_opening
    (env : ε)
    (hDepth : 0 < cfg.procedureDepth) :
    step cfg env [] .opening = .more [#[]] :=
  if_pos hDepth

/- Reading goes on in the procedure that it opens. -/
theorem readObject_opening
    {st st' : ScanState σ ε}
    (hDepth : 0 < cfg.procedureDepth)
    (hRead : Lexeme.read cfg false st = (.ok .opening, st')) :
    readObject cfg [] st = readObject cfg [#[]] st' := by
  rw [readObject_step, List.isEmpty_nil, Bool.not_true, hRead]
  dsimp only
  rw [step_opening _ hDepth]
  rfl

/- The environment of a text has heard its comments. -/
theorem hears_objects
    (cfg : ScanSettings)
    (r : Rest σ ε) :
    Environment.Hears r.env (objects cfg r).rest.env :=
  (hearing.objects_yields cfg r trivial).1

end Procedures

variable [ByteSource σ₁]
variable [ByteSource σ₂]

/-
  A text that is scanned to its end without an error may be
  put in braces. Then one call gives its objects as a
  procedure and stops behind the closing brace. The names are
  the same, and the environment has heard the same comments.
  Only the depth of procedures must allow for one more.
-/
theorem scan_braced
    (hEnds : cfg.controlDEnds = false)
    {text rest : List UInt8}
    {inner : σ₁}
    {outer : σ₂}
    (hText : Supplies inner text)
    (hSource :
      Supplies outer
        (0x7b :: (text ++ 0x0a :: 0x7d :: rest)))
    {names : NameTable}
    {env : ε}
    (hLocal : Environment.AllocatesLocally env)
    {xs : List Object}
    {r : Rest σ₁ ε}
    (hObjects :
      objects cfg ⟨inner, names, env⟩ = ⟨xs, none, r⟩)
    (hCount : xs.length ≤ min cfg.arrayLength maxArrayLength) :
    ∃ behind,
      scan
          { cfg with procedureDepth := cfg.procedureDepth + 1 }
          ⟨outer, names, env⟩ =
        (.ok (some (.array xs
            { Environment.newAttrs r.env with
              executable := true })),
          ⟨behind, r.names, r.env⟩) ∧
        Supplies behind rest := by
  have hNever :
      ¬ (cfg.controlDEnds = true ∨
        ¬ (fun _ : Cause => True) .malformed) := by
    simp [hEnds]
  have hFits := Nat.le_min.mp hCount
  have hBegins :=
    fun b hb => Lexeme.beginsToken_brace (b := b)
      (cfg.deeper 1) hb
  -- The brace opens a procedure without elements.
  rcases read_token false names env #[] (hBegins _ (.inl rfl))
      hSource with
    ⟨s, hOpening, hInside⟩
  have hOpened :
      readObject (cfg.deeper 1) [] ⟨outer, names, env, #[]⟩ =
        readObject (cfg.deeper 1) [#[]] ⟨s, names, env, #[]⟩ := by
    rw [readObject_step, List.isEmpty_nil, Bool.not_true,
      hOpening]
    simp [Lexeme.readFrom, step, openProcedure, follow,
      ScanSettings.deeper]
  -- The objects of the text become its elements.
  rcases readObject_body (tracks_append (0x7d :: rest)) hNever []
      ⟨s, names, env, #[]⟩
      ⟨.inl ⟨text, hText, hInside⟩, rfl, rfl⟩ hObjects
      hFits.1 with
    ⟨⟨s', names', env', held⟩, hBody, ⟨-, hBehind⟩, hNames,
      hEnv⟩
  dsimp only at hNames hEnv
  subst hNames hEnv
  -- The other brace closes it.
  rcases read_token true r.names r.env held
      (hBegins _ (.inr rfl)) hBehind with
    ⟨behind, hClosing, hRest⟩
  have hHears := hears_objects cfg ⟨inner, names, env⟩
  rw [hObjects] at hHears
  have hMake :=
    makeArray_of_local true (hLocal r.env hHears) hFits.2
  have hClosed :
      readObject (cfg.deeper 1) [xs.toArray]
          ⟨s', r.names, r.env, held⟩ =
        (.ok (some (.array xs
            { Environment.newAttrs r.env with
              executable := true })),
          ⟨behind, r.names, r.env, #[]⟩) := by
    rw [readObject_step, List.isEmpty_cons, Bool.not_false,
      hClosing]
    simp [Lexeme.readFrom, step, closeProcedure, hMake, place,
      follow]
  exact ⟨behind,
    scan_eq (hOpened.trans (hBody.trans hClosed)), hRest⟩

/- A procedure in a procedure, and a byte behind both. -/
theorem scan_braced_nested :
    ∃ xs r behind,
      objects {}
          ⟨Reader.ofList [0x7b, code '1', 0x7d],
            NameTable.empty, ()⟩ = ⟨xs, none, r⟩ ∧
        scan { procedureDepth := 257 }
            ⟨Reader.ofList
              [0x7b, 0x7b, code '1', 0x7d, 0x0a, 0x7d, code 'x'],
              NameTable.empty, ()⟩ =
          (.ok (some (.array xs { executable := true })),
            ⟨behind, r.names, ()⟩) ∧
          Supplies behind [code 'x'] := by
  have hInteger : Renders {} (.integer 1) [code '1'] :=
    .integer (Numeral.unsigned
      ⟨by decide, List.all_eq_true.mp rfl⟩) (by decide)
  have hItems : RendersAll {} false [.integer 1] [code '1'] :=
    .cons .nil (absurd · Bool.false_ne_true) hInteger
      (.nil .nil)
  have hText :
      RendersAll {} false [.procedure [.integer 1]]
        [0x7b, code '1', 0x7d] :=
    .cons .nil (absurd · Bool.false_ne_true)
      (.procedure hItems) (.nil .nil)
  rcases objectsAfter_trees NameTable.empty #[] hText
      (by decide) (by decide) staysLocal_unit
      (Reader.supplies (Reader.ofList [0x7b, code '1', 0x7d]))
    with
    ⟨xs, r, hObjects, hTrees, -⟩
  have hCount : xs.length ≤ 1 :=
    (Tree.length_objects? hTrees).le
  rcases scan_braced rfl (Reader.supplies _)
      (Reader.supplies (Reader.ofList _)) (fun _ _ => rfl)
      hObjects (Nat.le_trans hCount (by decide)) with
    ⟨behind, hScan, hRest⟩
  exact ⟨xs, r, behind, hObjects, hScan, hRest⟩

end Scanner

end PostScript
