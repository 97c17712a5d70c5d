import PostScript.Proofs.BinaryToken.Echoes
import PostScript.Proofs.Scanner.Rendered
import PostScript.Proofs.Source.Tracking

/-
  This file shows that program text is scanned alike where all
  values of names come wrapped, unless the scanner refuses to
  build a procedure. The objects found then are the same but
  for the wrappers.

  Key definitions include:
    * `Environment.Places`
    * `ScanState.wrapped`
    * `Echoed`

  Main results:
    * `Lexeme.tokenFrom_echoed`
    * `Lexeme.read_echoed`
    * `Scanner.readObject_echoed`
-/

namespace PostScript

open ByteSource

variable {σ ε α β : Type}
variable [Environment ε]
variable {E : ε → Prop}

------------------------------------------------------------
-- States
------------------------------------------------------------

/-
  These environments remain among themselves whatever comments
  they hear, and all values of names in them are well placed.
-/
structure Environment.Places
    (E : ε → Prop) : Prop where
  comment : ∀ {env} (text : Bytes), E env → E (comment env text)
  value : ∀ {v}, Gives E v → v.WellPlaced

/- Each answers alike where the values come wrapped. -/
theorem Environment.Places.echoes
    (hPlaces : Environment.Places E)
    {env : ε}
    (hEnv : E env) :
    Environment.Echoes (Environment.Refuses E)
      (Object.Made E) env (Environment.Wrapped.mk env) :=
  echoes_wrapped hEnv (fun _ => hPlaces.value)

/- The same state, in which values come wrapped. -/
def ScanState.wrapped
    (st : ScanState σ ε) :
    ScanState σ (Environment.Wrapped ε) :=
  ⟨st.source, st.names, ⟨st.env⟩, st.text⟩

/- Nothing is changed but the environment. -/
omit [Environment ε] in
theorem ScanState.wrapped_mk
    (src : σ)
    (names : NameTable)
    (env : ε)
    (text : Bytes) :
    wrapped ⟨src, names, env, text⟩ =
      ⟨src, names, ⟨env⟩, text⟩ :=
  rfl

/-
  What is read where values come wrapped is what is read from
  the same state where they do not, unless that is refused.
-/
inductive Echoed
    (E : ε → Prop)
    (R : β → α → Prop) :
    Except Cause α × ScanState σ ε →
      Except Cause β × ScanState σ (Environment.Wrapped ε) →
        Prop where
  | ok
      {v : α}
      {w : β}
      {st : ScanState σ ε}
      (hEnv : E st.env)
      (hValue : R w v) :
      Echoed E R (.ok v, st) (.ok w, st.wrapped)
  | error
      (cause : Cause)
      (st : ScanState σ ε)
      (st' : ScanState σ (Environment.Wrapped ε)) :
      Echoed E R (.error cause, st) (.error cause, st')
  | refused
      {cause : Cause}
      (hRefusal : Environment.Refuses E cause)
      (st : ScanState σ ε)
      (y :
        Except Cause β ×
          ScanState σ (Environment.Wrapped ε)) :
      Echoed E R (.error cause, st) y

namespace Lexeme

variable {st : ScanState σ ε}

------------------------------------------------------------
-- Names and Strings
------------------------------------------------------------

/- A name is found or made alike. -/
theorem nameOf_echoed
    (executable : Bool)
    (bytes : Bytes)
    (hEnv : E st.env) :
    Echoed E (Object.Made E) (nameOf executable bytes st)
      (nameOf executable bytes st.wrapped) := by
  rcases st with ⟨src, names, env, text⟩
  unfold nameOf ScanState.wrapped
  dsimp only
  rcases names.intern bytes with ⟨cause | n, names'⟩
  · exact .error _ _ _
  · exact .ok hEnv (Object.made_simple rfl)

/- The value of an immediate name comes wrapped. -/
theorem immediateOf_echoed
    (hPlaces : Environment.Places E)
    (bytes : Bytes)
    (hEnv : E st.env) :
    Echoed E (Object.Made E) (immediateOf bytes st)
      (immediateOf bytes st.wrapped) := by
  rcases st with ⟨src, names, env, text⟩
  unfold immediateOf ScanState.wrapped
  dsimp only
  rcases names.intern bytes with ⟨cause | n, names'⟩
  · exact .error _ _ _
  · dsimp only
    rw [NameTable.load_wrapped]
    rcases hLoad : names'.load env n with ⟨_ | v, names''⟩
    · exact .error _ _ _
    · have hValue := NameTable.gives_load hEnv hLoad
      exact .ok hEnv ⟨.value hValue, hPlaces.value hValue⟩

/- A string is made alike of what has been gathered. -/
theorem stringOf_echoed
    (x : Scanned σ Unit)
    (hEnv : E st.env) :
    Echoed E (Object.Made E) (stringOf x st)
      (stringOf x st.wrapped) := by
  rcases x with ⟨cause | _, text, s⟩
  · exact .error _ _ _
  · exact .ok hEnv (Object.made_string hEnv text false)

theorem base85Of_echoed
    (x : Scanned σ Bytes)
    (hEnv : E st.env) :
    Echoed E (Object.Made E) (base85Of x st)
      (base85Of x st.wrapped) := by
  rcases x with ⟨cause | bytes, text, s⟩
  · exact .error _ _ _
  · exact .ok hEnv (Object.made_string hEnv bytes false)

------------------------------------------------------------
-- Tokens
------------------------------------------------------------

variable [ByteSource σ]

/- A word is a number, or a name. -/
theorem word_echoed
    (hPlaces : Environment.Places E)
    (cfg : ScanSettings)
    (first : UInt8)
    (hEnv : E st.env) :
    Echoed E (Object.Made E) (word cfg first st)
      (word cfg first st.wrapped) := by
  rcases st with ⟨src, names, env, text⟩
  unfold word ScanState.wrapped
  dsimp only
  rcases regular cfg.stringLength #[first] src with
    ⟨cause | _, text, s⟩
  · exact .error _ _ _
  · dsimp only
    rcases Number.ofLiteral text.toList with cause | _ | n
    · exact .error _ _ _
    · exact nameOf_echoed true text hEnv
    · exact .ok hEnv (BinaryToken.ofNumber_echoes
        (hPlaces.echoes hEnv) n)

/- A piece that begins with an opening bracket. -/
theorem openAngle_echoed
    (cfg : ScanSettings)
    (hEnv : E st.env) :
    Echoed E (Object.Made E) (openAngle cfg st)
      (openAngle cfg st.wrapped) := by
  unfold openAngle unexpected
  rw [ScanState.wrapped]
  dsimp only
  rcases next st.source with ⟨b | _ | m, s⟩
  · dsimp only
    split
    · exact nameOf_echoed true _ hEnv
    · split
      · exact base85Of_echoed _ hEnv
      · exact stringOf_echoed _ hEnv
  · exact .error _ _ _
  · exact .error _ _ _

/- A piece that begins with a closing one. -/
theorem closeAngle_echoed
    (cfg : ScanSettings)
    (hEnv : E st.env) :
    Echoed E (Object.Made E) (closeAngle cfg st)
      (closeAngle cfg st.wrapped) := by
  unfold closeAngle unexpected
  rw [ScanState.wrapped]
  dsimp only
  rcases next st.source with ⟨b | _ | m, s⟩
  · dsimp only
    split
    · exact nameOf_echoed true _ hEnv
    · exact .error _ _ _
  · exact .error _ _ _
  · exact .error _ _ _

/- A name behind one slash or two. -/
theorem slashed_echoed
    (hPlaces : Environment.Places E)
    (cfg : ScanSettings)
    (hEnv : E st.env) :
    Echoed E (Object.Made E) (slashed cfg st)
      (slashed cfg st.wrapped) := by
  unfold slashed
  rw [ScanState.wrapped]
  dsimp only
  rcases secondSlash st.source with ⟨cause | immediate, s⟩
  · exact .error _ _ _
  · dsimp only
    rcases regular cfg.stringLength #[] s with
      ⟨cause | _, text, s'⟩
    · exact .error _ _ _
    · dsimp only
      split
      · exact immediateOf_echoed hPlaces text hEnv
      · exact nameOf_echoed false text hEnv

/- A binary token is made into an object alike. -/
theorem binary_echoed
    (hPlaces : Environment.Places E)
    (first : UInt8)
    (hEnv : E st.env) :
    Echoed E (Object.Made E) (binary first st)
      (binary first st.wrapped) := by
  rcases st with ⟨src, names, env, text⟩
  unfold binary ScanState.wrapped
  dsimp only
  rcases BinaryToken.read first src with ⟨cause | token, s⟩
  · exact .error _ _ _
  · have hToken :=
      BinaryToken.object_echoes (hPlaces.echoes hEnv) token
    dsimp only
    cases hRun : token.object env names with
    | ok o names' =>
        rcases hToken.of_ok hRun with ⟨d, hOther, hMade⟩
        rw [hOther]
        exact .ok hEnv hMade
    | error cause names' =>
        rcases hToken.of_error hRun with
          hRefusal | ⟨names'', hOther⟩
        · exact .refused hRefusal _ _
        · rw [hOther]
          exact .error _ _ _

/- The token that begins with a byte is read alike. -/
theorem tokenFrom_echoed
    (hPlaces : Environment.Places E)
    (cfg : ScanSettings)
    (first : UInt8)
    (hEnv : E st.env) :
    Echoed E (Object.Made E) (tokenFrom cfg first st)
      (tokenFrom cfg first st.wrapped) := by
  unfold tokenFrom
  split
  · exact stringOf_echoed _ hEnv
  · split
    · exact openAngle_echoed cfg hEnv
    · split
      · exact closeAngle_echoed cfg hEnv
      · split
        · exact nameOf_echoed true _ hEnv
        · split
          · exact .error _ _ _
          · split
            · exact slashed_echoed hPlaces cfg hEnv
            · split
              · exact binary_echoed hPlaces first hEnv
              · exact word_echoed hPlaces cfg first hEnv

------------------------------------------------------------
-- Pieces
------------------------------------------------------------

/- Pieces that are the same but for wrapped values. -/
inductive Made
    (E : ε → Prop) : Lexeme → Lexeme → Prop where
  | object
      {d o : Object}
      (hMade : Object.Made E d o) :
      Made E (.object d) (.object o)
  | opening : Made E .opening .opening
  | closing : Made E .closing .closing
  | ended : Made E .ended .ended

/- The piece that begins with a byte is read alike. -/
theorem readFrom_echoed
    (hPlaces : Environment.Places E)
    (cfg : ScanSettings)
    (nested : Bool)
    (first : UInt8)
    (hEnv : E st.env) :
    Echoed E (Made E) (readFrom cfg nested first st)
      (readFrom cfg nested first st.wrapped) := by
  have hToken := tokenFrom_echoed hPlaces cfg first hEnv
  unfold readFrom
  split
  · exact .ok hEnv .opening
  · split
    · exact .ok hEnv .closing
    · generalize tokenFrom cfg first st = x at hToken ⊢
      generalize tokenFrom cfg first st.wrapped = y
        at hToken ⊢
      cases hToken with
      | ok hEnv hMade => exact .ok hEnv (.object hMade)
      | error => exact .error _ _ _
      | refused hRefusal => exact .refused hRefusal _ _

/-
  Blanks are skipped alike, and comments are heard alike. By
  induction on what is left.
-/
theorem skipBlanks_echoed
    (hPlaces : Environment.Places E)
    (cfg : ScanSettings)
    (hEnv : E st.env) :
    Echoed E (fun b b' => b = b') (skipBlanks cfg st)
      (skipBlanks cfg st.wrapped) := by
  rcases st with ⟨src, names, env, text⟩
  induction src using ByteSource.induction_remaining
    generalizing env text with
  | step src ih =>
      rw [ScanState.wrapped_mk,
        skipBlanks_eq cfg src names env text,
        skipBlanks_eq cfg src names
          (Environment.Wrapped.mk env) text]
      rcases hNext : next src with ⟨b | _ | m, s⟩
      · have hLess := remaining_byte hNext
        dsimp only
        split
        · have hLeft :=
            remaining_comment cfg.stringLength #[] s
          generalize comment cfg.stringLength #[] s = x
            at hLeft ⊢
          rcases x with ⟨cause | _, gathered, s'⟩
          · exact .error _ _ _
          · exact ih s' (Nat.lt_of_le_of_lt hLeft hLess) _ _
              (hPlaces.comment gathered hEnv)
        · split
          · exact .ok hEnv rfl
          · split
            · exact ih s hLess _ _ hEnv
            · exact .ok hEnv rfl
      · exact .ok hEnv rfl
      · exact .error _ _ _

/- The next piece is read alike. -/
theorem read_echoed
    (hPlaces : Environment.Places E)
    (cfg : ScanSettings)
    (nested : Bool)
    (hEnv : E st.env) :
    Echoed E (Made E) (read cfg nested st)
      (read cfg nested st.wrapped) := by
  have hBlanks := skipBlanks_echoed hPlaces cfg hEnv
  unfold read
  generalize skipBlanks cfg st = x at hBlanks ⊢
  generalize skipBlanks cfg st.wrapped = y at hBlanks ⊢
  cases hBlanks with
  | error => exact .error _ _ _
  | refused hRefusal => exact .refused hRefusal _ _
  | @ok found _ st' hEnv hSame =>
      cases hSame
      cases found with
      | none => exact .ok hEnv .ended
      | some first =>
          exact readFrom_echoed hPlaces cfg nested first hEnv

end Lexeme

namespace Scanner

------------------------------------------------------------
-- Steps
------------------------------------------------------------

/- An object, or none, that is the same but for wrappers. -/
abbrev Found
    (E : ε → Prop) : Option Object → Option Object → Prop :=
  Option.Rel (Object.Made E)

/- The elements of the open procedures are made alike. -/
abbrev Opened
    (E : ε → Prop) : OpenProcedures → OpenProcedures → Prop :=
  List.Forall₂ (fun ds es =>
    List.Forall₂ (Object.Made E) ds.toList es.toList)

/- Steps that lead to the same, unless that is refused. -/
inductive Step.Echoed
    (E : ε → Prop) : Step → Step → Prop where
  | answer
      {x y : Except Cause (Option Object)}
      (hAnswer :
        Answered (Environment.Refuses E) (Found E) x y) :
      Echoed E (.answer x) (.answer y)
  | more
      {outer outer' : OpenProcedures}
      (hOpened : Opened E outer' outer) :
      Echoed E (.more outer) (.more outer')
  | refused
      {cause : Cause}
      (hRefusal : Environment.Refuses E cause)
      (s : Step) :
      Echoed E (.answer (.error cause)) s

variable {outer outer' : OpenProcedures}

/- A finished object is put into its place alike. -/
theorem place_echoed
    (cfg : ScanSettings)
    (hOpened : Opened E outer' outer)
    {d o : Object}
    (hMade : Object.Made E d o) :
    Step.Echoed E (place cfg outer o) (place cfg outer' d) := by
  cases hOpened with
  | nil => exact .answer (.ok (.some hMade))
  | @cons ds es _ _ hElements hRest =>
      have hSize : ds.size = es.size := hElements.length_eq
      unfold place
      dsimp only
      rw [hSize]
      split
      · refine .more (.cons ?_ hRest)
        rw [Array.toList_push, Array.toList_push]
        exact List.rel_append hElements (.cons hMade .nil)
      · exact .answer (.error _)

/- A procedure is closed alike, unless that is refused. -/
theorem closeProcedure_echoed
    (cfg : ScanSettings)
    {env : ε}
    (hEnv : E env)
    (hOpened : Opened E outer' outer) :
    Step.Echoed E (closeProcedure cfg env outer)
      (closeProcedure cfg (Environment.Wrapped.mk env)
        outer') := by
  cases hOpened with
  | nil => exact .answer (.error _)
  | @cons ds es _ _ hElements hRest =>
      have hArray := makeArray_wrapped hEnv true hElements
      unfold closeProcedure
      dsimp only
      generalize makeArray env true es.toList = x at hArray ⊢
      generalize
        makeArray (Environment.Wrapped.mk env) true ds.toList =
          y at hArray ⊢
      cases hArray with
      | ok hMade => exact place_echoed cfg hRest hMade
      | error cause => exact .answer (.error cause)
      | refused hRefusal => exact .refused hRefusal _

/- A piece is dealt with alike. -/
theorem step_echoed
    (cfg : ScanSettings)
    {env : ε}
    (hEnv : E env)
    (hOpened : Opened E outer' outer)
    {l l' : Lexeme}
    (hMade : Lexeme.Made E l' l) :
    Step.Echoed E (step cfg env outer l)
      (step cfg (Environment.Wrapped.mk env) outer' l') := by
  cases hMade with
  | object hMade => exact place_echoed cfg hOpened hMade
  | opening =>
      unfold step openProcedure
      dsimp only
      rw [hOpened.length_eq]
      split
      · exact .more (.cons .nil hOpened)
      · exact .answer (.error _)
  | closing => exact closeProcedure_echoed cfg hEnv hOpened
  | ended =>
      cases hOpened with
      | nil => exact .answer (.ok .none)
      | cons => exact .answer (.error _)

------------------------------------------------------------
-- Objects
------------------------------------------------------------

variable [ByteSource σ]

/- Reading goes on alike if it does behind open procedures. -/
theorem follow_echoed
    {cfg : ScanSettings}
    {st : ScanState σ ε}
    {s s' : Step}
    (hEnv : E st.env)
    (hStep : Step.Echoed E s s')
    (hMore :
      ∀ outer outer', s = .more outer →
        Opened E outer' outer →
          Echoed E (Found E) (readObject cfg outer st)
            (readObject cfg outer' st.wrapped)) :
    Echoed E (Found E) (follow cfg s st)
      (follow cfg s' st.wrapped) := by
  cases hStep with
  | answer hAnswer =>
      cases hAnswer with
      | ok hFound => exact .ok hEnv hFound
      | error cause => exact .error _ _ _
      | refused hRefusal => exact .refused hRefusal _ _
  | more hOpened => exact hMore _ _ rfl hOpened
  | refused hRefusal => exact .refused hRefusal _ _

/-
  The object behind open procedures is read alike, by
  induction on what is left.
-/
theorem readObject_echoed
    (hPlaces : Environment.Places E)
    (cfg : ScanSettings)
    (st : ScanState σ ε)
    (hEnv : E st.env)
    (hOpened : Opened E outer' outer) :
    Echoed E (Found E) (readObject cfg outer st)
      (readObject cfg outer' st.wrapped) := by
  induction hLeft : remaining st.source
    using Nat.strong_induction_on
    generalizing st outer outer' with
  | _ n ih =>
      have hEmpty : outer'.isEmpty = outer.isEmpty := by
        cases hOpened <;> rfl
      have hPiece :=
        Lexeme.read_echoed hPlaces cfg (!outer.isEmpty) hEnv
      rw [readObject_step outer st,
        readObject_step outer' st.wrapped, hEmpty]
      generalize hRead :
        Lexeme.read cfg (!outer.isEmpty) st = x at hPiece ⊢
      generalize Lexeme.read cfg _ st.wrapped = y at hPiece ⊢
      cases hPiece with
      | error => exact .error _ _ _
      | refused hRefusal => exact .refused hRefusal _ _
      | @ok l l' st' hEnv' hMade =>
          apply follow_echoed hEnv'
            (step_echoed cfg hEnv' hOpened hMade)
          intro outer₁ outer₁' hStep hOpened'
          refine ih _ ?_ _ hEnv' hOpened' rfl
          rw [← hLeft]
          apply Lexeme.remaining_read_lt cfg _ st st' l hRead
          rintro rfl
          exact step_ended_ne_more cfg _ _ _ hStep

end Scanner

end PostScript
