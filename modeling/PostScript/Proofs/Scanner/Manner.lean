import PostScript.Proofs.Name.WellFormed
import PostScript.Proofs.Run
import PostScript.Scanner.Program

/-
  This file shows what scanning keeps, once for all that may
  be asked of the objects it gives. It is enough to look at
  the few places where program text makes names and objects;
  that the scanner goes from one to the other, and back, is
  shown here.

  Key definitions include:
    * `Scanner.Manner`
    * `Scanner.Manner.Yields`

  Main results:
    * `Scanner.Manner.tokenFrom_yields`
    * `Scanner.Manner.read_yields`
    * `Scanner.Manner.readObject_yields`
    * `Scanner.Manner.scan_yields`
    * `Scanner.Manner.objects_yields`
-/

namespace PostScript.Scanner

/-
  How scanning goes: how the names and the environment change,
  where scanning may start, and what an object is that has
  been scanned. What holds goes on to hold while they change,
  and it holds of all that is made on the way: names, values
  of names, strings, numbers, binary tokens and procedures.
-/
structure Manner (ε : Type) [Environment ε] where
  changes : NameTable → ε → NameTable → ε → Prop
  starts : NameTable → ε → Prop
  gives : NameTable → ε → Object → Prop
  refl : ∀ {t env}, changes t env t env
  trans :
    ∀ {t t' t'' env env' env''},
      changes t env t' env' → changes t' env' t'' env'' →
        changes t env t'' env''
  starts_of_changes :
    ∀ {t t' env env'},
      changes t env t' env' → starts t env → starts t' env'
  gives_of_changes :
    ∀ {t t' env env' o},
      changes t env t' env' → gives t env o → gives t' env' o
  comment :
    ∀ {t env} (text : Bytes),
      changes t env t (Environment.comment env text)
  intern :
    ∀ {t : NameTable} {env} (bytes : Bytes),
      changes t env (t.intern bytes).2 env
  load :
    ∀ {t : NameTable} {env n}, starts t env → t.Holds n →
      changes t env (t.load env n).2 env
  name :
    ∀ {t t' : NameTable} {env bytes n} (executable : Bool),
      t.intern bytes = (.ok n, t') →
        gives t' env (Object.name n executable)
  value :
    ∀ {t t' : NameTable} {env n v}, starts t env →
      t.Holds n → t.load env n = (some v, t') →
        gives t' env v
  string :
    ∀ {t env} (bytes : Bytes),
      gives t env
        (Object.string bytes (Environment.newAttrs env))
  number :
    ∀ {t env text n}, Number.ofLiteral text = .ok (some n) →
      gives t env (Object.ofNumber n)
  token :
    ∀ {σ : Type} [ByteSource σ] {t env} {lead : UInt8}
      {src src' : σ} {token : BinaryToken},
      starts t env →
      BinaryToken.read lead src = (.ok token, src') →
        Goes (changes · env · env) (fun o t => gives t env o)
          (token.object env) t
  procedure :
    ∀ {t env es o}, (∀ e ∈ es, gives t env e) →
      makeArray env true es = .ok o → gives t env o

namespace Manner

variable {σ ε α : Type}
variable [Environment ε]
variable (M : Manner ε)

------------------------------------------------------------
-- States
------------------------------------------------------------

/-
  What was read on from a state: the names and the environment
  changed in this manner, and a value is of a given kind.
-/
def Yields
    (st : ScanState σ ε)
    (V : NameTable → ε → α → Prop)
    (x : Except Cause α × ScanState σ ε) : Prop :=
  M.changes st.names st.env x.2.names x.2.env ∧
    ∀ v, x.1 = .ok v → V x.2.names x.2.env v

/- A piece whose object, if it is one, is scanned so. -/
def Piece
    (t : NameTable)
    (env : ε)
    (l : Lexeme) : Prop :=
  ∀ o, l = .object o → M.gives t env o

/- All elements of the open procedures are scanned so. -/
def Opened
    (t : NameTable)
    (env : ε)
    (outer : OpenProcedures) : Prop :=
  ∀ es ∈ outer, ∀ e ∈ es.toList, M.gives t env e

/- So is all that there is when a piece has been dealt with. -/
def Leads
    (t : NameTable)
    (env : ε) : Step → Prop
  | .answer r => ∀ o, r = .ok (some o) → M.gives t env o
  | .more outer => M.Opened t env outer

variable {M}
variable {st : ScanState σ ε}
variable {V : NameTable → ε → α → Prop}

/- A value is given elsewhere in the source. -/
theorem yields_ok
    {v : α}
    (hValue : V st.names st.env v)
    (src : σ)
    (text : Bytes) :
    M.Yields st V (.ok v, ⟨src, st.names, st.env, text⟩) := by
  refine ⟨M.refl, ?_⟩
  intro v' hv'
  cases hv'
  exact hValue

/- A failure, elsewhere in the source. -/
theorem yields_error
    (cause : Cause)
    (src : σ)
    (text : Bytes) :
    M.Yields st V
      (.error cause, ⟨src, st.names, st.env, text⟩) := by
  refine ⟨M.refl, ?_⟩
  intro v hv
  contradiction

------------------------------------------------------------
-- Pieces
------------------------------------------------------------

open Lexeme

/- A name that is found or made. -/
theorem nameOf_yields
    (executable : Bool)
    (bytes : Bytes)
    (st : ScanState σ ε) :
    M.Yields st M.gives (nameOf executable bytes st) := by
  have hIntern :
      M.changes st.names st.env (st.names.intern bytes).2
        st.env :=
    M.intern bytes
  unfold nameOf
  dsimp only
  split
  next n names hMade =>
    rw [hMade] at hIntern
    refine ⟨hIntern, ?_⟩
    intro o ho
    cases ho
    exact M.name executable hMade
  next cause names hMade =>
    rw [hMade] at hIntern
    exact ⟨hIntern, fun _ h => nomatch h⟩

/- The value of an immediate name. -/
theorem immediateOf_yields
    (bytes : Bytes)
    (st : ScanState σ ε)
    (hStarts : M.starts st.names st.env) :
    M.Yields st M.gives (immediateOf bytes st) := by
  have hIntern :
      M.changes st.names st.env (st.names.intern bytes).2
        st.env :=
    M.intern bytes
  unfold immediateOf
  dsimp only
  split
  next cause names hMade =>
    rw [hMade] at hIntern
    exact ⟨hIntern, fun _ h => nomatch h⟩
  next n names hMade =>
    rw [hMade] at hIntern
    have hHolds := (NameTable.holds_of_internWithin hMade).1
    have hStarts' := M.starts_of_changes hIntern hStarts
    have hLoad := M.load hStarts' hHolds
    split
    next v names' hFound =>
      rw [hFound] at hLoad
      refine ⟨M.trans hIntern hLoad, ?_⟩
      intro o ho
      cases ho
      exact M.value hStarts' hHolds hFound
    next names' hNone =>
      rw [hNone] at hLoad
      exact ⟨M.trans hIntern hLoad, fun _ h => nomatch h⟩

/- A string is new. -/
theorem stringOf_yields
    (x : Scanned σ Unit) :
    M.Yields st M.gives (stringOf x st) := by
  rcases x with ⟨_ | _, text, s⟩
  · exact yields_error _ s text
  · exact yields_ok (M.string text) s text

theorem base85Of_yields
    (x : Scanned σ Bytes) :
    M.Yields st M.gives (base85Of x st) := by
  rcases x with ⟨_ | bytes, text, s⟩
  · exact yields_error _ s text
  · exact yields_ok (M.string bytes) s text

variable [ByteSource σ]

/- The pieces that begin with an angle bracket. -/
theorem openAngle_yields
    (cfg : ScanSettings) :
    M.Yields st M.gives (openAngle cfg st) := by
  unfold openAngle
  split
  · exact yields_error _ _ _
  · exact yields_error _ _ _
  next b s _ =>
    split
    · exact nameOf_yields true _ { st with source := s }
    · split
      · exact base85Of_yields _
      · exact stringOf_yields _

theorem closeAngle_yields
    (cfg : ScanSettings) :
    M.Yields st M.gives (closeAngle cfg st) := by
  unfold closeAngle
  split
  · exact yields_error _ _ _
  · exact yields_error _ _ _
  next b s _ =>
    split
    · exact nameOf_yields true _ { st with source := s }
    · exact yields_error _ _ _

/- A name behind one slash or two. -/
theorem slashed_yields
    (cfg : ScanSettings)
    (hStarts : M.starts st.names st.env) :
    M.Yields st M.gives (slashed cfg st) := by
  unfold slashed
  split
  · exact yields_error _ _ _
  · split
    · exact yields_error _ _ _
    next text s _ =>
      split
      · exact immediateOf_yields text
          { st with source := s, text := text } hStarts
      · exact nameOf_yields false text
          { st with source := s, text := text }

/- A binary token. -/
theorem binary_yields
    (first : UInt8)
    (hStarts : M.starts st.names st.env) :
    M.Yields st M.gives (binary first st) := by
  unfold binary
  dsimp only
  split
  · exact yields_error _ _ _
  next token s hRead =>
    have hToken := M.token hStarts hRead
    split
    next o names hRun =>
      rcases hToken.of_ok hRun with ⟨hChanges, hGives⟩
      refine ⟨hChanges, ?_⟩
      intro o' ho'
      cases ho'
      exact hGives
    next cause names hRun =>
      exact ⟨(hToken.of_error hRun).1, fun _ h => nomatch h⟩

/- A number or an executable name. -/
theorem word_yields
    (cfg : ScanSettings)
    (first : UInt8) :
    M.Yields st M.gives (word cfg first st) := by
  unfold word
  split
  · exact yields_error _ _ _
  next text s _ =>
    split
    · exact yields_error _ _ _
    next n hLiteral =>
      exact yields_ok (M.number hLiteral) _ _
    · exact nameOf_yields true text
        { st with source := s, text := text }

/- The object that begins with a byte. -/
theorem tokenFrom_yields
    (cfg : ScanSettings)
    (first : UInt8)
    (hStarts : M.starts st.names st.env) :
    M.Yields st M.gives (tokenFrom cfg first st) := by
  unfold tokenFrom
  split
  · exact stringOf_yields _
  · split
    · exact openAngle_yields cfg
    · split
      · exact closeAngle_yields cfg
      · split
        · exact nameOf_yields true _ st
        · split
          · exact yields_error _ _ _
          · split
            · exact slashed_yields cfg hStarts
            · split
              · exact binary_yields first hStarts
              · exact word_yields cfg first

/- The piece that begins with a byte. -/
theorem readFrom_yields
    (cfg : ScanSettings)
    (nested : Bool)
    (first : UInt8)
    (st : ScanState σ ε)
    (hStarts : M.starts st.names st.env) :
    M.Yields st M.Piece (readFrom cfg nested first st) := by
  unfold readFrom
  split
  · exact yields_ok (fun _ h => nomatch h) _ _
  · split
    · exact yields_ok (fun _ h => nomatch h) _ _
    · have hToken :=
        tokenFrom_yields (M := M) cfg first hStarts
      split
      next o st' hRead =>
        rw [hRead] at hToken
        refine ⟨hToken.1, ?_⟩
        intro l hl o' ho'
        cases hl
        cases ho'
        exact hToken.2 o rfl
      next cause st' hRead =>
        rw [hRead] at hToken
        exact ⟨hToken.1, fun _ h => nomatch h⟩

/- Blanks may hold comments, which are heard. -/
theorem skipBlanks_changes
    (cfg : ScanSettings)
    (st : ScanState σ ε) :
    M.changes st.names st.env (skipBlanks cfg st).2.names
      (skipBlanks cfg st).2.env := by
  fun_induction skipBlanks cfg st with
  | case1 | case2 | case3 | case5 | case7 => exact M.refl
  | case4 src names env text b s hNext hSign _ gathered
      s' hComment ih => exact M.trans (M.comment gathered) ih
  | case6 src names env text b s hNext hSign hEnd hBlank ih =>
      exact ih

/- The next piece. -/
theorem read_yields
    (cfg : ScanSettings)
    (nested : Bool)
    (hStarts : M.starts st.names st.env) :
    M.Yields st M.Piece (Lexeme.read cfg nested st) := by
  have hBlanks := skipBlanks_changes (M := M) cfg st
  unfold Lexeme.read
  split
  next cause st' hSkip =>
    rw [hSkip] at hBlanks
    exact ⟨hBlanks, fun _ h => nomatch h⟩
  next st' hSkip =>
    rw [hSkip] at hBlanks
    refine ⟨hBlanks, ?_⟩
    intro l hl o ho
    cases hl
    contradiction
  next first st' hSkip =>
    rw [hSkip] at hBlanks
    have hPiece :=
      readFrom_yields cfg nested first
        { st' with text := #[] }
        (M.starts_of_changes hBlanks hStarts)
    exact ⟨M.trans hBlanks hPiece.1, hPiece.2⟩

------------------------------------------------------------
-- Programs
------------------------------------------------------------

section Steps

variable {t : NameTable}
variable {env : ε}
variable {outer : OpenProcedures}

omit [ByteSource σ] in
/- Procedures stay what they are while more is read. -/
theorem Opened.of_changes
    {t' : NameTable}
    {env' : ε}
    (hOuter : M.Opened t env outer)
    (hChanges : M.changes t env t' env') :
    M.Opened t' env' outer :=
  fun es hes e he =>
    M.gives_of_changes hChanges (hOuter es hes e he)

omit [ByteSource σ] in
/- A finished object is put where all is scanned so. -/
theorem place_leads
    (cfg : ScanSettings)
    (hOuter : M.Opened t env outer)
    {o : Object}
    (ho : M.gives t env o) :
    M.Leads t env (place cfg outer o) := by
  unfold place
  split
  · intro o' ho'
    cases ho'
    exact ho
  next elements rest =>
    split
    · intro es hes e he
      rcases List.mem_cons.mp hes with rfl | hes
      · rw [Array.toList_push, List.mem_append,
          List.mem_singleton] at he
        rcases he with he | rfl
        · exact hOuter _ List.mem_cons_self e he
        · exact ho
      · exact hOuter es (List.mem_cons_of_mem _ hes) e he
    · intro o' ho'
      contradiction

omit [ByteSource σ] in
/- Whatever the piece is, the step leads to nothing else. -/
theorem step_leads
    (cfg : ScanSettings)
    (hOuter : M.Opened t env outer)
    {l : Lexeme}
    (hPiece : M.Piece t env l) :
    M.Leads t env (step cfg env outer l) := by
  cases l with
  | object o => exact place_leads cfg hOuter (hPiece o rfl)
  | opening =>
      unfold step openProcedure
      dsimp only
      split
      · intro es hes e he
        rcases List.mem_cons.mp hes with rfl | hes
        · simp at he
        · exact hOuter es hes e he
      · intro o' ho'
        contradiction
  | closing =>
      unfold step closeProcedure
      dsimp only
      split
      · intro o' ho'
        contradiction
      next elements rest =>
        split
        next o hMake =>
          refine place_leads cfg ?_ (M.procedure ?_ hMake)
          · exact fun es hes =>
              hOuter es (List.mem_cons_of_mem _ hes)
          · exact hOuter _ List.mem_cons_self
        next =>
          intro o' ho'
          contradiction
  | ended =>
      unfold step
      dsimp only
      split
      · exact fun _ h => nomatch h
      · exact fun _ h => nomatch h

end Steps

/- A piece is read, and the step that it leads to is made. -/
theorem step_read_leads
    {cfg : ScanSettings}
    {outer : OpenProcedures}
    {st' : ScanState σ ε}
    {l : Lexeme}
    (hStarts : M.starts st.names st.env)
    (hOuter : M.Opened st.names st.env outer)
    (hRead :
      Lexeme.read cfg (!outer.isEmpty) st = (.ok l, st')) :
    M.changes st.names st.env st'.names st'.env ∧
      M.Leads st'.names st'.env
        (step cfg st'.env outer l) := by
  have hPiece :=
    read_yields (M := M) cfg (!outer.isEmpty) hStarts
  rw [hRead] at hPiece
  exact ⟨hPiece.1,
    step_leads cfg (hOuter.of_changes hPiece.1)
      (hPiece.2 l rfl)⟩

/-
  The object behind open procedures, by induction on the
  pieces.
-/
theorem readObject_yields
    (cfg : ScanSettings)
    (outer : OpenProcedures)
    (st : ScanState σ ε)
    (hStarts : M.starts st.names st.env)
    (hOuter : M.Opened st.names st.env outer) :
    M.Yields st
      (fun t env found =>
        ∀ o, found = some o → M.gives t env o)
      (readObject cfg outer st) := by
  fun_induction readObject cfg outer st with
  | case1 outer st cause st' hRead =>
      have hPiece :=
        read_yields (M := M) cfg (!outer.isEmpty) hStarts
      rw [hRead] at hPiece
      refine ⟨hPiece.1, ?_⟩
      intro found hFound
      contradiction
  | case2 outer st l st' hRead r hStep =>
      rcases step_read_leads hStarts hOuter hRead with
        ⟨hChanges, hLeads⟩
      rw [hStep] at hLeads
      refine ⟨hChanges, ?_⟩
      intro found hFound o ho
      dsimp only at hFound
      exact hLeads o (by rw [hFound, ho])
  | case3 outer st l st' hRead outer' hStep ih =>
      rcases step_read_leads hStarts hOuter hRead with
        ⟨hChanges, hLeads⟩
      rw [hStep] at hLeads
      have hRest :=
        ih (M.starts_of_changes hChanges hStarts) hLeads
      exact ⟨M.trans hChanges hRest.1, hRest.2⟩

variable (M)

/- The object that a call gives. -/
theorem scan_yields
    (cfg : ScanSettings)
    (r : Rest σ ε)
    (hStarts : M.starts r.names r.env) :
    M.changes r.names r.env
        (scan cfg r).2.names (scan cfg r).2.env ∧
      ∀ o, (scan cfg r).1 = .ok (some o) →
        M.gives (scan cfg r).2.names (scan cfg r).2.env o := by
  rcases r with ⟨source, names, env⟩
  have hObject :=
    readObject_yields (M := M) cfg []
      (⟨source, names, env, #[]⟩ : ScanState σ ε)
      hStarts (fun es hes => by simp at hes)
  unfold scan
  dsimp only
  split
  next o source' names' env' text hRead =>
    rw [hRead] at hObject
    refine ⟨hObject.1, ?_⟩
    intro o' ho'
    cases ho'
    exact hObject.2 _ rfl o' rfl
  next cause source' names' env' text hRead =>
    rw [hRead] at hObject
    exact ⟨hObject.1, fun _ h => nomatch h⟩

/- The objects of repeated calls. -/
theorem objectsAfter_yields
    (cfg : ScanSettings)
    (done : Array Object)
    (r : Rest σ ε)
    (hStarts : M.starts r.names r.env)
    (hDone : ∀ o ∈ done.toList, M.gives r.names r.env o) :
    M.changes r.names r.env
        (objectsAfter cfg done r).rest.names
        (objectsAfter cfg done r).rest.env ∧
      ∀ o ∈ (objectsAfter cfg done r).objects,
        M.gives (objectsAfter cfg done r).rest.names
          (objectsAfter cfg done r).rest.env o := by
  fun_induction objectsAfter cfg done r with
  | case1 done r r' hScan | case2 done r e r' hScan =>
      have hCall := M.scan_yields cfg r hStarts
      rw [hScan] at hCall
      exact ⟨hCall.1, fun o ho =>
        M.gives_of_changes hCall.1 (hDone o ho)⟩
  | case3 done r o r' hScan ih =>
      have hCall := M.scan_yields cfg r hStarts
      rw [hScan] at hCall
      have hPushed :
          ∀ o' ∈ (done.push o).toList,
            M.gives r'.names r'.env o' := by
        intro o' ho'
        rw [Array.toList_push, List.mem_append,
          List.mem_singleton] at ho'
        rcases ho' with ho' | rfl
        · exact M.gives_of_changes hCall.1 (hDone o' ho')
        · exact hCall.2 _ rfl
      have hRest :=
        ih (M.starts_of_changes hCall.1 hStarts) hPushed
      exact ⟨M.trans hCall.1 hRest.1, hRest.2⟩

/- All objects of a source. -/
theorem objects_yields
    (cfg : ScanSettings)
    (r : Rest σ ε)
    (hStarts : M.starts r.names r.env) :
    M.changes r.names r.env
        (objects cfg r).rest.names
        (objects cfg r).rest.env ∧
      ∀ o ∈ (objects cfg r).objects,
        M.gives (objects cfg r).rest.names
          (objects cfg r).rest.env o :=
  M.objectsAfter_yields cfg #[] r hStarts
    (fun o ho => by simp at ho)

end Manner

end PostScript.Scanner
