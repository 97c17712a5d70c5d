import PostScript.Proofs.Scanner.Manner
import PostScript.Proofs.Scanner.Rendered
import PostScript.Proofs.Sequence.Peers
import PostScript.Proofs.Source.Tracking

/-
  This file shows that program text is scanned alike with
  different tables of names and in different environments, if
  no name has a value. Where one call fails, the other fails
  for the same cause and with the same bytes of a token, also
  if the outermost open procedure has more elements in the
  second, as long as there is room for them.

  Key definitions include:
    * `Environment.Unbound`
    * `ScanState.Peers`
    * `Scanner.Preceded`
    * `Scanner.mostElements`

  Main results:
    * `Lexeme.read_paired`
    * `Scanner.step_paired`
    * `Scanner.readObject_paired`
-/

namespace PostScript

open ByteSource

variable {σ ε : Type}
variable [Environment ε]
variable {system : Array Name}
variable {vm : Vm}

------------------------------------------------------------
-- Binary Tokens
------------------------------------------------------------

namespace BinaryToken

variable {env env' : ε}

/- What needs no names is given alike. -/
theorem given_alongside
    {T : NameTable → NameTable → Prop}
    {x y : Except Cause Object}
    (h :
      (∃ o o', x = .ok o ∧ y = .ok o' ∧ Object.Fits vm o o') ∨
        ∃ cause, x = .error cause ∧ y = .error cause) :
    Alongside T (Object.Fits vm) (given x) (given y) := by
  rcases h with ⟨o, o', rfl, rfl, hFits⟩ | ⟨cause, rfl, rfl⟩
  · exact .pure hFits
  · exact .fail cause

/- A number that is read is given alike. -/
theorem given_number
    {T : NameTable → NameTable → Prop}
    (x : Except Cause Number) :
    Alongside T (Object.Fits vm)
      (given (x.map Object.ofNumber))
      (given (x.map Object.ofNumber)) := by
  apply given_alongside
  cases x with
  | ok n =>
      exact .inl ⟨_, _, rfl, rfl, Object.fits_simple
        (Object.isComposite_ofNumber n)
        (Object.isComposite_ofNumber n)⟩
  | error cause => exact .inr ⟨cause, rfl, rfl⟩

/- So is an array of numbers. -/
theorem given_numbers
    {T : NameTable → NameTable → Prop}
    (hBare : Environment.Bare vm env)
    (hBare' : Environment.Bare vm env')
    (f : NumberFormat)
    (bytes : Bytes) :
    Alongside T (Object.Fits vm)
      (given (numbersObject env f bytes))
      (given (numbersObject env' f bytes)) := by
  apply given_alongside
  unfold numbersObject
  cases NumberArray.decode f bytes with
  | error cause => exact .inr ⟨cause, rfl, rfl⟩
  | ok ns =>
      have hElements :
          List.Forall₂ (Object.Fits vm)
            (ns.map Object.ofNumber)
            (ns.map Object.ofNumber) := by
        rw [List.forall₂_map_left_iff,
          List.forall₂_map_right_iff, List.forall₂_same]
        exact fun n _ => Object.fits_simple
          (Object.isComposite_ofNumber n)
          (Object.isComposite_ofNumber n)
      rcases makeArray_fits hBare hBare' false hElements with
        h | ⟨h, h'⟩
      · exact .inl h
      · exact .inr ⟨_, h, h'⟩

/- The object of a token is made alike. -/
theorem object_alongside
    (hBare : Environment.Bare vm env)
    (hBare' : Environment.Bare vm env')
    (token : BinaryToken) :
    Alongside (NameTable.Peers system) (Object.Fits vm)
      (token.object env) (token.object env') := by
  have hSimple :
      ∀ {o : Object}, o.isComposite = false →
        Alongside (NameTable.Peers system) (Object.Fits vm)
          (pure o) (pure o) :=
    fun h => .pure (Object.fits_simple h h)
  cases token with
  | sequence h payload =>
      exact Sequence.readPayload_alongside hBare hBare' h
        payload
  | integer v => exact hSimple rfl
  | number f bytes => exact given_number _
  | real bits => exact given_number _
  | boolean v =>
      unfold object
      dsimp only
      split
      · exact hSimple rfl
      · split
        · exact hSimple rfl
        · exact .fail _
  | string bytes =>
      exact .pure (Object.fits_string hBare hBare' bytes false)
  | systemName index executable =>
      refine .get_bind ?_
      intro t t' hPeers
      rw [hPeers.systemName?_eq]
      cases t.systemName? index with
      | none => exact .error _ hPeers
      | some n =>
          exact .ok (Object.fits_simple rfl rfl) hPeers
  | userName index => exact .fail _
  | numbers f bytes => exact given_numbers hBare hBare' f bytes

end BinaryToken

------------------------------------------------------------
-- States
------------------------------------------------------------

/-
  No name has a value, and new objects go to this memory,
  whatever comments are heard.
-/
def Environment.Unbound
    (vm : Vm)
    (env : ε) : Prop :=
  ∀ env', Hears env env' → Bare vm env'

namespace Environment.Unbound

variable {env : ε}

/- It is so before any comment is heard. -/
theorem bare
    (h : Unbound vm env) :
    Bare vm env :=
  h env (.refl env)

/- It remains so. -/
theorem hears
    {env' : ε}
    (h : Unbound vm env)
    (hHears : Hears env env') :
    Unbound vm env' :=
  fun env'' hHears' => h env'' (hHears.trans hHears')

/- It is so where there are no names at all. -/
theorem unit : Unbound .localVm () :=
  fun _ _ => ⟨fun _ _ => rfl, rfl⟩

end Environment.Unbound

/-
  States that differ in their names and in the comments that
  the environment has heard.
-/
inductive ScanState.Peers
    (system : Array Name)
    (vm : Vm) :
    ScanState σ ε → ScanState σ ε → Prop where
  | intro
      {t t' : NameTable}
      {env env' : ε}
      (hNames : NameTable.Peers system t t')
      (hEnv : Environment.Unbound vm env)
      (hEnv' : Environment.Unbound vm env')
      (src : σ)
      (text : Bytes) :
      ScanState.Peers system vm ⟨src, t, env, text⟩
        ⟨src, t', env', text⟩

/- Nothing has a value in either. -/
theorem ScanState.Peers.bare
    {st st' : ScanState σ ε}
    (h : st.Peers system vm st') :
    Environment.Bare vm st.env ∧
      Environment.Bare vm st'.env := by
  rcases h with ⟨-, hEnv, hEnv', -, -⟩
  exact ⟨hEnv.bare, hEnv'.bare⟩

/-
  Two readings that come to a value, or that both fail for the
  same cause. The states that they come to are peers.
-/
inductive Paired
    {α : Type}
    (system : Array Name)
    (vm : Vm)
    (V : α → α → Prop) :
    Except Cause α × ScanState σ ε →
      Except Cause α × ScanState σ ε → Prop where
  | ok
      {v w : α}
      {st st' : ScanState σ ε}
      (hValue : V v w)
      (hPeers : st.Peers system vm st') :
      Paired system vm V (.ok v, st) (.ok w, st')
  | error
      (cause : Cause)
      {st st' : ScanState σ ε}
      (hPeers : st.Peers system vm st') :
      Paired system vm V (.error cause, st) (.error cause, st')

------------------------------------------------------------
-- Tokens
------------------------------------------------------------

namespace Lexeme

variable {st st' : ScanState σ ε}

/- A token that nothing begins with is one in both. -/
theorem unexpected_paired
    (b : UInt8)
    (hPeers : st.Peers system vm st') :
    Paired system vm (Object.Fits vm) (unexpected b st)
      (unexpected b st') := by
  rcases hPeers with ⟨hNames, hEnv, hEnv', src, text⟩
  exact .error _ ⟨hNames, hEnv, hEnv', src, _⟩

/- Names are found or made alike. -/
theorem nameOf_paired
    (executable : Bool)
    (bytes : Bytes)
    (hPeers : st.Peers system vm st') :
    Paired system vm (Object.Fits vm)
      (nameOf executable bytes st)
      (nameOf executable bytes st') := by
  rcases hPeers with ⟨hNames, hEnv, hEnv', src, text⟩
  unfold nameOf NameTable.intern
  dsimp only
  rcases NameTable.internWithin_peers hNames maxNameLength
      bytes with
    ⟨n, u, n', u', h, h', -, hPeers⟩ | ⟨h, h'⟩
  · rw [h, h']
    exact .ok (Object.fits_simple rfl rfl)
      ⟨hPeers, hEnv, hEnv', src, text⟩
  · rw [h, h']
    exact .error _ ⟨hNames, hEnv, hEnv', src, text⟩

/- No name has a value. -/
theorem immediateOf_paired
    (bytes : Bytes)
    (hPeers : st.Peers system vm st') :
    Paired system vm (Object.Fits vm) (immediateOf bytes st)
      (immediateOf bytes st') := by
  rcases hPeers with ⟨hNames, hEnv, hEnv', src, text⟩
  unfold immediateOf NameTable.intern
  dsimp only
  rcases NameTable.internWithin_peers hNames maxNameLength
      bytes with
    ⟨n, u, n', u', h, h', -, hPeers⟩ | ⟨h, h'⟩
  · rw [h, h']
    dsimp only
    rw [NameTable.load_bare hEnv.bare,
      NameTable.load_bare hEnv'.bare]
    exact .error _ ⟨hPeers, hEnv, hEnv', src, text⟩
  · rw [h, h']
    exact .error _ ⟨hNames, hEnv, hEnv', src, text⟩

/- Strings of the same bytes are made. -/
theorem stringOf_paired
    (x : Scanned σ Unit)
    (hPeers : st.Peers system vm st') :
    Paired system vm (Object.Fits vm) (stringOf x st)
      (stringOf x st') := by
  rcases hPeers with ⟨hNames, hEnv, hEnv', src, text⟩
  rcases x with ⟨cause | _, gathered, s⟩
  · exact .error _ ⟨hNames, hEnv, hEnv', s, gathered⟩
  · exact .ok
      (Object.fits_string hEnv.bare hEnv'.bare gathered false)
      ⟨hNames, hEnv, hEnv', s, gathered⟩

theorem base85Of_paired
    (x : Scanned σ Bytes)
    (hPeers : st.Peers system vm st') :
    Paired system vm (Object.Fits vm) (base85Of x st)
      (base85Of x st') := by
  rcases hPeers with ⟨hNames, hEnv, hEnv', src, text⟩
  rcases x with ⟨cause | bytes, gathered, s⟩
  · exact .error _ ⟨hNames, hEnv, hEnv', s, gathered⟩
  · exact .ok
      (Object.fits_string hEnv.bare hEnv'.bare bytes false)
      ⟨hNames, hEnv, hEnv', s, gathered⟩

variable [ByteSource σ]

/- A word is a number, or a name. -/
theorem word_paired
    (cfg : ScanSettings)
    (first : UInt8)
    (hPeers : st.Peers system vm st') :
    Paired system vm (Object.Fits vm) (word cfg first st)
      (word cfg first st') := by
  rcases hPeers with ⟨hNames, hEnv, hEnv', src, text⟩
  unfold word
  dsimp only
  rcases regular cfg.stringLength #[first] src with
    ⟨cause | _, gathered, s⟩
  · exact .error _ ⟨hNames, hEnv, hEnv', s, gathered⟩
  · dsimp only
    rcases Number.ofLiteral gathered.toList with cause | _ | n
    · exact .error _ ⟨hNames, hEnv, hEnv', s, gathered⟩
    · exact nameOf_paired true gathered
        ⟨hNames, hEnv, hEnv', s, gathered⟩
    · exact .ok
        (Object.fits_simple (Object.isComposite_ofNumber n)
          (Object.isComposite_ofNumber n))
        ⟨hNames, hEnv, hEnv', s, gathered⟩

/- A piece that begins with an opening bracket. -/
theorem openAngle_paired
    (cfg : ScanSettings)
    (hPeers : st.Peers system vm st') :
    Paired system vm (Object.Fits vm) (openAngle cfg st)
      (openAngle cfg st') := by
  rcases hPeers with ⟨hNames, hEnv, hEnv', src, text⟩
  unfold openAngle
  dsimp only
  rcases next src with ⟨b | _ | m, s⟩
  · dsimp only
    split
    · exact nameOf_paired true _
        ⟨hNames, hEnv, hEnv', s, text⟩
    · split
      · exact base85Of_paired _
          ⟨hNames, hEnv, hEnv', src, text⟩
      · exact stringOf_paired _
          ⟨hNames, hEnv, hEnv', src, text⟩
  · exact unexpected_paired _ ⟨hNames, hEnv, hEnv', s, text⟩
  · exact .error _ ⟨hNames, hEnv, hEnv', s, text⟩

/- A piece that begins with a closing one. -/
theorem closeAngle_paired
    (cfg : ScanSettings)
    (hPeers : st.Peers system vm st') :
    Paired system vm (Object.Fits vm) (closeAngle cfg st)
      (closeAngle cfg st') := by
  rcases hPeers with ⟨hNames, hEnv, hEnv', src, text⟩
  unfold closeAngle
  dsimp only
  rcases next src with ⟨b | _ | m, s⟩
  · dsimp only
    split
    · exact nameOf_paired true _
        ⟨hNames, hEnv, hEnv', s, text⟩
    · exact unexpected_paired _
        ⟨hNames, hEnv, hEnv', s, text⟩
  · exact unexpected_paired _ ⟨hNames, hEnv, hEnv', s, text⟩
  · exact .error _ ⟨hNames, hEnv, hEnv', s, text⟩

/- A name behind one slash or two. -/
theorem slashed_paired
    (cfg : ScanSettings)
    (hPeers : st.Peers system vm st') :
    Paired system vm (Object.Fits vm) (slashed cfg st)
      (slashed cfg st') := by
  rcases hPeers with ⟨hNames, hEnv, hEnv', src, text⟩
  unfold slashed
  dsimp only
  rcases secondSlash src with ⟨cause | immediate, s⟩
  · exact .error _ ⟨hNames, hEnv, hEnv', s, text⟩
  · dsimp only
    rcases regular cfg.stringLength #[] s with
      ⟨cause | _, gathered, s'⟩
    · exact .error _ ⟨hNames, hEnv, hEnv', s', gathered⟩
    · dsimp only
      split
      · exact immediateOf_paired gathered
          ⟨hNames, hEnv, hEnv', s', gathered⟩
      · exact nameOf_paired false gathered
          ⟨hNames, hEnv, hEnv', s', gathered⟩

/- A binary token is made into an object alike. -/
theorem binary_paired
    (first : UInt8)
    (hPeers : st.Peers system vm st') :
    Paired system vm (Object.Fits vm) (binary first st)
      (binary first st') := by
  rcases hPeers with
    @⟨t, t', env, env', hNames, hEnv, hEnv', src, text⟩
  unfold binary
  dsimp only
  rcases BinaryToken.read first src with ⟨cause | token, s⟩
  · exact .error _ ⟨hNames, hEnv, hEnv', s, text⟩
  · have hRuns :=
      BinaryToken.object_alongside hEnv.bare hEnv'.bare token
        t t' hNames
    dsimp only
    generalize token.object env t = x at hRuns ⊢
    generalize token.object env' t' = y at hRuns ⊢
    cases hRuns with
    | ok hFits hPeers =>
        exact .ok hFits ⟨hPeers, hEnv, hEnv', s, text⟩
    | error cause hPeers =>
        exact .error cause ⟨hPeers, hEnv, hEnv', s, text⟩

/- The token that begins with a byte is read alike. -/
theorem tokenFrom_paired
    (cfg : ScanSettings)
    (first : UInt8)
    (hPeers : st.Peers system vm st') :
    Paired system vm (Object.Fits vm) (tokenFrom cfg first st)
      (tokenFrom cfg first st') := by
  have hSource : st'.source = st.source := by
    cases hPeers
    rfl
  unfold tokenFrom
  rw [hSource]
  split
  · exact stringOf_paired _ hPeers
  · split
    · exact openAngle_paired cfg hPeers
    · split
      · exact closeAngle_paired cfg hPeers
      · split
        · exact nameOf_paired true _ hPeers
        · split
          · exact unexpected_paired first hPeers
          · split
            · exact slashed_paired cfg hPeers
            · split
              · exact binary_paired first hPeers
              · exact word_paired cfg first hPeers

------------------------------------------------------------
-- Pieces
------------------------------------------------------------

/- Pieces of the same kind. -/
inductive Fits
    (vm : Vm) : Lexeme → Lexeme → Prop where
  | object
      {o o' : Object}
      (hFits : Object.Fits vm o o') :
      Fits vm (.object o) (.object o')
  | opening : Fits vm .opening .opening
  | closing : Fits vm .closing .closing
  | ended : Fits vm .ended .ended

/- The piece that begins with a byte is read alike. -/
theorem readFrom_paired
    (cfg : ScanSettings)
    (nested : Bool)
    (first : UInt8)
    (hPeers : st.Peers system vm st') :
    Paired system vm (Fits vm) (readFrom cfg nested first st)
      (readFrom cfg nested first st') := by
  have hToken := tokenFrom_paired cfg first hPeers
  unfold readFrom
  split
  · exact .ok .opening hPeers
  · split
    · exact .ok .closing hPeers
    · generalize tokenFrom cfg first st = x at hToken ⊢
      generalize tokenFrom cfg first st' = y at hToken ⊢
      cases hToken with
      | ok hFits hPeers => exact .ok (.object hFits) hPeers
      | error cause hPeers => exact .error cause hPeers

/-
  Blanks are skipped alike, whatever comments have been heard.
  By induction on what is left.
-/
theorem skipBlanks_paired
    (cfg : ScanSettings)
    (hPeers : st.Peers system vm st') :
    Paired system vm (fun b b' => b' = b) (skipBlanks cfg st)
      (skipBlanks cfg st') := by
  rcases hPeers with
    @⟨t, t', env, env', hNames, hEnv, hEnv', src, text⟩
  induction src using ByteSource.induction_remaining
    generalizing env env' text with
  | step src ih =>
      rw [skipBlanks_eq cfg src t env text,
        skipBlanks_eq cfg src t' env' text]
      rcases hNext : next src with ⟨b | _ | m, s⟩
      · have hLess := remaining_byte hNext
        dsimp only
        split
        · have hLeft :=
            remaining_comment cfg.stringLength #[] s
          generalize comment cfg.stringLength #[] s = x
            at hLeft ⊢
          rcases x with ⟨cause | _, gathered, s'⟩
          · exact .error _ ⟨hNames, hEnv, hEnv', s', gathered⟩
          · exact ih s' (Nat.lt_of_le_of_lt hLeft hLess)
              (hEnv.hears (Environment.hears_comment _ _))
              (hEnv'.hears (Environment.hears_comment _ _)) #[]
        · split
          · exact .ok rfl ⟨hNames, hEnv, hEnv', s, text⟩
          · split
            · exact ih s hLess hEnv hEnv' text
            · exact .ok rfl ⟨hNames, hEnv, hEnv', s, text⟩
      · exact .ok rfl ⟨hNames, hEnv, hEnv', s, text⟩
      · exact .error _ ⟨hNames, hEnv, hEnv', s, text⟩

/- The next piece is read alike. -/
theorem read_paired
    (cfg : ScanSettings)
    (nested : Bool)
    (hPeers : st.Peers system vm st') :
    Paired system vm (Fits vm) (read cfg nested st)
      (read cfg nested st') := by
  have hBlanks := skipBlanks_paired cfg hPeers
  unfold read
  generalize skipBlanks cfg st = x at hBlanks ⊢
  generalize skipBlanks cfg st' = y at hBlanks ⊢
  cases hBlanks with
  | error cause hPeers => exact .error cause hPeers
  | @ok _ found _ _ hSame hPeers =>
      subst hSame
      cases found with
      | none => exact .ok .ended hPeers
      | some first =>
          rcases hPeers with ⟨hNames, hEnv, hEnv', src, text⟩
          exact readFrom_paired cfg nested first
            ⟨hNames, hEnv, hEnv', src, #[]⟩

end Lexeme

namespace Scanner

------------------------------------------------------------
-- Elements
------------------------------------------------------------

/- How many elements the outermost open procedure has. -/
def outermost : OpenProcedures → Nat
  | [] => 0
  | [elements] => elements.size
  | _ :: outer => outermost outer

set_option linter.unusedVariables false in
/-
  The most elements that the outermost procedure comes to have
  while an object is read, also when that fails.
-/
def mostElements
    [ByteSource σ]
    (cfg : ScanSettings)
    (outer : OpenProcedures)
    (st : ScanState σ ε) : Nat :=
  match hRead : Lexeme.read cfg (!outer.isEmpty) st with
  | (.error _, _) => outermost outer
  | (.ok l, st') =>
      match hStep : step cfg st'.env outer l with
      | .answer _ => outermost outer
      | .more outer' =>
          max (outermost outer) (mostElements cfg outer' st')
termination_by remaining st.source
decreasing_by
  refine Lexeme.remaining_read_lt cfg _ st st' l hRead ?_
  intro hEnd
  subst hEnd
  exact step_ended_ne_more cfg st'.env outer outer' hStep

/-
  The same procedures are open, with as many elements, but for
  the outermost one, which may have `n` more in the second
  place. All elements may be put into arrays.
-/
inductive Preceded
    (vm : Vm)
    (n : Nat) : OpenProcedures → OpenProcedures → Prop where
  | none : Preceded vm n [] []
  | outermost
      {es es' : Array Object}
      (hSize : es'.size = n + es.size)
      (hLegal : ∀ e ∈ es.toList, e.isIllegalIn vm = false)
      (hLegal' : ∀ e ∈ es'.toList, e.isIllegalIn vm = false) :
      Preceded vm n [es] [es']
  | inside
      {es es' : Array Object}
      {outer outer' : OpenProcedures}
      (hElements :
        List.Forall₂ (Object.Fits vm) es.toList es'.toList)
      (hPreceded : Preceded vm n outer outer') :
      Preceded vm n (es :: outer) (es' :: outer')

/- What is opened inside leaves the outermost one alone. -/
theorem outermost_le_cons
    (elements : Array Object)
    (outer : OpenProcedures) :
    outermost outer ≤ outermost (elements :: outer) := by
  cases outer with
  | nil => exact Nat.zero_le _
  | cons => exact Nat.le_refl _

/- As many procedures are open. -/
theorem Preceded.length_eq
    {n : Nat}
    {outer outer' : OpenProcedures}
    (h : Preceded vm n outer outer') :
    outer'.length = outer.length := by
  induction h with
  | none => rfl
  | outermost => rfl
  | inside _ _ ih => rw [List.length_cons, List.length_cons, ih]

/- In particular, none are open or some are. -/
theorem Preceded.isEmpty_eq
    {n : Nat}
    {outer outer' : OpenProcedures}
    (h : Preceded vm n outer outer') :
    outer'.isEmpty = outer.isEmpty := by
  cases h <;> rfl

/- Steps that answer alike, or go on alike. -/
inductive Step.Paired
    (vm : Vm)
    (n : Nat) : Step → Step → Prop where
  | found
      {o o' : Option Object}
      (hFits : Option.Rel (Object.Fits vm) o o') :
      Paired vm n (.answer (.ok o)) (.answer (.ok o'))
  | failed
      (cause : Cause) :
      Paired vm n (.answer (.error cause))
        (.answer (.error cause))
  | more
      {outer outer' : OpenProcedures}
      (hPreceded : Preceded vm n outer outer') :
      Paired vm n (.more outer) (.more outer')

/-
  There is room for so many elements with `n` more, if there
  are more.
-/
def Roomy
    (cfg : ScanSettings)
    (n count : Nat) : Prop :=
  n = 0 ∨ n + count ≤ min cfg.arrayLength maxArrayLength

/- There is room for fewer, too. -/
theorem Roomy.mono
    {cfg : ScanSettings}
    {n count count' : Nat}
    (h : Roomy cfg n count)
    (hLess : count' ≤ count) :
    Roomy cfg n count' := by
  unfold Roomy at h ⊢
  omega

section Steps

variable {cfg : ScanSettings}
variable {n : Nat}
variable {outer outer' : OpenProcedures}

/- One more element may be put into arrays. -/
theorem legal_push
    {es : Array Object}
    {o : Object}
    (hLegal : ∀ e ∈ es.toList, e.isIllegalIn vm = false)
    (hNew : o.isIllegalIn vm = false) :
    ∀ e ∈ (es.push o).toList, e.isIllegalIn vm = false := by
  intro e he
  rw [Array.toList_push, List.mem_append,
    List.mem_singleton] at he
  rcases he with he | rfl
  · exact hLegal e he
  · exact hNew

/- A finished object is put into its place alike. -/
theorem place_paired
    {o o' : Object}
    (hPreceded : Preceded vm n outer outer')
    (hFits : Object.Fits vm o o')
    (hRoom : Roomy cfg n (outermost outer))
    (hNext :
      ∀ next, place cfg outer o = .more next →
        Roomy cfg n (outermost next)) :
    Step.Paired vm n (place cfg outer o)
      (place cfg outer' o') := by
  cases hPreceded with
  | none => exact .found (.some hFits)
  | @outermost es es' hSize hLegal hLegal' =>
      unfold Roomy outermost at hRoom
      unfold place at hNext ⊢
      dsimp only at hNext ⊢
      by_cases hLess : es.size < cfg.arrayLength
      · rw [if_pos hLess] at hNext ⊢
        have hMore := hNext _ rfl
        have hLess' : es'.size < cfg.arrayLength := by
          unfold Roomy outermost at hMore
          rw [Array.size_push] at hMore
          omega
        rw [if_pos hLess']
        refine .more (.outermost ?_ (legal_push hLegal hFits.1)
          (legal_push hLegal' hFits.2))
        rw [Array.size_push, Array.size_push, hSize]
        rfl
      · have hLess' : ¬ es'.size < cfg.arrayLength := by
          omega
        rw [if_neg hLess, if_neg hLess']
        exact .failed _
  | @inside es es' _ _ hElements hPreceded =>
      have hSize : es.size = es'.size := hElements.length_eq
      unfold place
      dsimp only
      rw [hSize]
      split
      · refine .more (.inside ?_ hPreceded)
        rw [Array.toList_push, Array.toList_push]
        exact List.rel_append hElements (.cons hFits .nil)
      · exact .failed _

variable {env env' : ε}

/- A procedure is closed alike. -/
theorem closeProcedure_paired
    (hBare : Environment.Bare vm env)
    (hBare' : Environment.Bare vm env')
    (hPreceded : Preceded vm n outer outer')
    (hRoom : Roomy cfg n (outermost outer))
    (hNext :
      ∀ next, closeProcedure cfg env outer = .more next →
        Roomy cfg n (outermost next)) :
    Step.Paired vm n (closeProcedure cfg env outer)
      (closeProcedure cfg env' outer') := by
  cases hPreceded with
  | none => exact .failed _
  | @outermost es es' hSize hLegal hLegal' =>
      unfold Roomy outermost at hRoom
      unfold closeProcedure
      dsimp only
      by_cases hLong : maxArrayLength < es.toList.length
      · -- There are no more elements in the second place.
        have hLong' : maxArrayLength < es'.toList.length := by
          rw [Array.length_toList] at hLong ⊢
          omega
        have hMake :
            makeArray env true es.toList =
              .error .arrayTooLong :=
          if_pos hLong
        have hMake' :
            makeArray env' true es'.toList =
              .error .arrayTooLong :=
          if_pos hLong'
        rw [hMake, hMake']
        exact .failed _
      · rw [Array.length_toList] at hLong
        rcases makeArray_bare hBare true hLegal
            (by rw [Array.length_toList]; omega) with
          ⟨o, hMake, hNew⟩
        rcases makeArray_bare hBare' true hLegal'
            (by rw [Array.length_toList]; omega) with
          ⟨o', hMake', hNew'⟩
        rw [hMake, hMake']
        exact .found (.some ⟨hNew, hNew'⟩)
  | @inside es es' _ _ hElements hPreceded =>
      unfold closeProcedure at hNext ⊢
      dsimp only at hNext ⊢
      rcases makeArray_fits hBare hBare' true hElements with
        ⟨o, o', h, h', hFits⟩ | ⟨h, h'⟩
      · rw [h] at hNext ⊢
        rw [h']
        exact place_paired hPreceded hFits
          (hRoom.mono (outermost_le_cons es _)) hNext
      · rw [h, h']
        exact .failed _

/- A piece is dealt with alike. -/
theorem step_paired
    (hBare : Environment.Bare vm env)
    (hBare' : Environment.Bare vm env')
    (hPreceded : Preceded vm n outer outer')
    {l l' : Lexeme}
    (hFits : l.Fits vm l')
    (hRoom : Roomy cfg n (outermost outer))
    (hNext :
      ∀ next, step cfg env outer l = .more next →
        Roomy cfg n (outermost next)) :
    Step.Paired vm n (step cfg env outer l)
      (step cfg env' outer' l') := by
  cases hFits with
  | object hFits => exact place_paired hPreceded hFits hRoom hNext
  | opening =>
      unfold step openProcedure
      dsimp only
      rw [hPreceded.length_eq]
      split
      · exact .more (.inside .nil hPreceded)
      · exact .failed _
  | closing =>
      exact closeProcedure_paired hBare hBare' hPreceded hRoom
        hNext
  | ended =>
      unfold step
      dsimp only
      rw [hPreceded.isEmpty_eq]
      split
      · exact .found .none
      · exact .failed _

end Steps

------------------------------------------------------------
-- Objects
------------------------------------------------------------

section Objects

variable [ByteSource σ]
variable {cfg : ScanSettings}
variable {n : Nat}
variable {outer outer' : OpenProcedures}
variable {st st' : ScanState σ ε}

/- The outermost procedure has no more than the most. -/
theorem outermost_le_mostElements
    (cfg : ScanSettings)
    (outer : OpenProcedures)
    (st : ScanState σ ε) :
    outermost outer ≤ mostElements cfg outer st := by
  unfold mostElements
  split
  · exact Nat.le_refl _
  · split
    · exact Nat.le_refl _
    · exact Nat.le_max_left _ _

/- The most are no less than when reading goes on. -/
theorem mostElements_of_more
    {l : Lexeme}
    (hRead :
      Lexeme.read cfg (!outer.isEmpty) st = (.ok l, st'))
    (hStep : step cfg st'.env outer l = .more outer') :
    mostElements cfg outer st =
      max (outermost outer) (mostElements cfg outer' st') := by
  rw [mostElements]
  split
  next hOther => simp [hOther] at hRead
  next hOther =>
    rw [hOther] at hRead
    cases hRead
    split
    next hAnswer =>
      rw [hStep] at hAnswer
      cases hAnswer
    next hMore =>
      rw [hStep] at hMore
      cases hMore
      rfl

/-
  In a procedure, objects are read alike. By induction on the
  pieces: each is read alike and dealt with alike.
-/
theorem readObject_paired
    (hPreceded : Preceded vm n outer outer')
    (hPeers : st.Peers system vm st')
    (hRoom : Roomy cfg n (mostElements cfg outer st)) :
    Paired system vm (Option.Rel (Object.Fits vm))
      (readObject cfg outer st) (readObject cfg outer' st') := by
  fun_induction readObject cfg outer st
    generalizing outer' st' with
  | case1 outer st cause st₁ hRead =>
      have hPieces :=
        Lexeme.read_paired cfg (!outer.isEmpty) hPeers
      rw [hRead] at hPieces
      rw [readObject_step outer' st', hPreceded.isEmpty_eq]
      generalize Lexeme.read cfg _ st' = y at hPieces ⊢
      cases hPieces with
      | error _ hPeers => exact .error cause hPeers
  | case2 outer st l st₁ hRead r hStep =>
      have hPieces :=
        Lexeme.read_paired cfg (!outer.isEmpty) hPeers
      rw [hRead] at hPieces
      have hHere :=
        hRoom.mono (outermost_le_mostElements cfg outer st)
      rw [readObject_step outer' st', hPreceded.isEmpty_eq]
      generalize Lexeme.read cfg _ st' = y at hPieces ⊢
      cases hPieces with
      | @ok _ l' _ st₂ hFits hPeers =>
          have hNext :
              ∀ next, step cfg st₁.env outer l = .more next →
                Roomy cfg n (outermost next) := by
            intro next hMore
            rw [hStep] at hMore
            cases hMore
          have hSteps :=
            step_paired hPeers.bare.1 hPeers.bare.2 hPreceded
              hFits hHere hNext
          rw [hStep] at hSteps
          dsimp only
          generalize step cfg st₂.env outer' l' = s' at hSteps ⊢
          cases hSteps with
          | found hFits => exact .ok hFits hPeers
          | failed cause => exact .error cause hPeers
  | case3 outer st l st₁ hRead next hStep ih =>
      have hPieces :=
        Lexeme.read_paired cfg (!outer.isEmpty) hPeers
      rw [hRead] at hPieces
      rw [mostElements_of_more hRead hStep] at hRoom
      have hHere := hRoom.mono (Nat.le_max_left _ _)
      have hLater := hRoom.mono (Nat.le_max_right _ _)
      rw [readObject_step outer' st', hPreceded.isEmpty_eq]
      generalize Lexeme.read cfg _ st' = y at hPieces ⊢
      cases hPieces with
      | @ok _ l' _ st₂ hFits hPeers =>
          have hNext :
              ∀ next', step cfg st₁.env outer l = .more next' →
                Roomy cfg n (outermost next') := by
            intro next' hMore
            rw [hStep] at hMore
            cases hMore
            exact hLater.mono
              (outermost_le_mostElements cfg _ st₁)
          have hSteps :=
            step_paired hPeers.bare.1 hPeers.bare.2 hPreceded
              hFits hHere hNext
          rw [hStep] at hSteps
          dsimp only
          generalize step cfg st₂.env outer' l' = s' at hSteps ⊢
          cases hSteps with
          | more hPreceded => exact ih hPreceded hPeers hLater

end Objects

end Scanner

end PostScript
