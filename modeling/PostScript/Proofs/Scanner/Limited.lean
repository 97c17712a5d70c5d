import PostScript.Proofs.Environment.Sealed
import PostScript.Proofs.Name.Lengths
import PostScript.Proofs.Numeric.Spelled
import PostScript.Proofs.Object.Parts
import PostScript.Proofs.Scanner.Bodies
import PostScript.Proofs.StringBody.Sizes

/-
  This file shows that whatever is scanned is within the
  limits of the settings, at every depth, where there are no
  binary tokens and names have no values. Each piece is, and
  the procedures that are open have room left for as many
  more as may be opened inside them.

  Key definitions include:
    * `SpellsWord`
    * `Name.Limited`
    * `Object.Limited`
    * `Environment.Nameless`
    * `Lexeme.Keeps`
    * `Scanner.Bounded`

  Main results:
    * `Lexeme.tokenFrom_keeps`
    * `Lexeme.read_limited`
    * `Scanner.step_bounded`
    * `Scanner.readObject_limited`
-/

namespace PostScript

------------------------------------------------------------
-- Limits
------------------------------------------------------------

/- The names that are tokens by themselves. -/
def bracketNames : List Bytes :=
  ["[", "]", "<<", ">>"].map Bytes.ofText

/- At least one byte, all of them regular, and no number. -/
structure SpellsWord
    (bytes : Bytes) : Prop where
  nonempty : bytes ≠ #[]
  regular : ∀ b ∈ bytes, isRegular b = true
  notNumber : Number.ofLiteral bytes.toList = .ok none

/- A short name that the table holds under its bytes. -/
structure Name.Limited
    (t : NameTable)
    (executable : Bool)
    (n : Name) : Prop where
  size_le : n.bytes.size ≤ maxNameLength
  lookup : t.lookup n.bytes = some n
  word :
    executable = true → n.bytes ∉ bracketNames →
      SpellsWord n.bytes

/- What the settings allow of a value in program text. -/
def Atom.Limited
    (cfg : ScanSettings)
    (t : NameTable)
    (executable : Bool) : Atom → Prop
  | .name n => n.Limited t executable
  | .string bytes =>
      executable = false ∧ bytes.size ≤ cfg.stringLength
  | .real v => v.isFinite = true ∧ v.extension = 0
  | _ => True

/-
  What they allow of an object whose arrays nest no deeper
  than a depth.
-/
inductive Object.Limited
    (cfg : ScanSettings)
    (t : NameTable) : Nat → Object → Prop where
  | atom
      {v : Atom}
      {a : Attributes}
      (h : v.Limited cfg t a.executable)
      (depth : Nat) :
      Limited cfg t depth (.atom v a)
  | array
      {depth : Nat}
      {es : List Object}
      {a : Attributes}
      (hElements : ∀ e ∈ es, Limited cfg t depth e)
      (hCount : es.length ≤ min cfg.arrayLength maxArrayLength)
      (hExecutable : a.executable = true) :
      Limited cfg t (depth + 1) (.array es a)

variable {cfg : ScanSettings}
variable {t t' : NameTable}

/- A value stays within the limits while names are added. -/
theorem Atom.Limited.mono
    {v : Atom}
    {executable : Bool}
    (h : v.Limited cfg t executable)
    (hGrows : t.Grows t') :
    v.Limited cfg t' executable := by
  cases v with
  | name n =>
      exact ⟨h.size_le, hGrows _ _ h.lookup, h.word⟩
  | null | mark | infinity | integer | real | boolean
  | string => exact h

namespace Object.Limited

variable {o : Object}
variable {depth : Nat}

/- So does an object. -/
theorem mono
    (h : o.Limited cfg t depth)
    (hGrows : t.Grows t') :
    o.Limited cfg t' depth := by
  induction h with
  | atom h depth => exact .atom (h.mono hGrows) depth
  | array _ hCount hExecutable ih =>
      exact .array ih hCount hExecutable

/- What is no array is so at any depth. -/
theorem of_flat
    (h : o.Limited cfg t 0)
    (depth : Nat) :
    o.Limited cfg t depth := by
  cases h with
  | atom h => exact .atom h depth

end Object.Limited

------------------------------------------------------------
-- Environments
------------------------------------------------------------

section Environments

variable {ε : Type}
variable [Environment ε]
variable {env env' : ε}

/- No name has a value, whatever comments are heard. -/
def Environment.Nameless
    (env : ε) : Prop :=
  ∀ env', Environment.Hears env env' →
    ∀ hint n, Environment.find env' hint n = none

/- This holds on when comments are heard. -/
theorem Environment.Nameless.hears
    (h : Environment.Nameless env)
    (hHears : Environment.Hears env env') :
    Environment.Nameless env' :=
  fun env'' hMore => h env'' (hHears.trans hMore)

/- A name is looked up in vain. -/
theorem Environment.Nameless.load_eq
    (h : Environment.Nameless env)
    (t : NameTable)
    (n : Name) :
    t.load env n = (none, t) := by
  unfold NameTable.load
  rw [h env (.refl env)]

end Environments

------------------------------------------------------------
-- Tokens
------------------------------------------------------------

namespace Lexeme

variable {σ ε : Type}

/-
  A result that adds names and gives an object that is no
  array, if it gives one, and within the limits.
-/
structure Keeps
    (cfg : ScanSettings)
    (t : NameTable)
    (x : Except Cause Object × ScanState σ ε) : Prop where
  names : t.Grows x.2.names
  object : ∀ o, x.1 = .ok o → o.Limited cfg x.2.names 0

/- An error keeps everything. -/
theorem keeps_error
    (cause : Cause)
    (st : ScanState σ ε) :
    Keeps cfg st.names (.error cause, st) :=
  ⟨.refl _, nofun⟩

theorem unexpected_keeps
    (b : UInt8)
    (st : ScanState σ ε) :
    Keeps cfg st.names (unexpected b st) :=
  keeps_error _ { st with text := #[b] }

/- So does a value that is within the limits. -/
theorem keeps_atom
    {v : Atom}
    {a : Attributes}
    (st : ScanState σ ε)
    (h : v.Limited cfg st.names a.executable) :
    Keeps cfg st.names (.ok (.atom v a), st) := by
  refine ⟨.refl _, ?_⟩
  intro o ho
  cases ho
  exact .atom h 0

/- A name is found under its bytes from then on. -/
theorem nameOf_keeps
    {executable : Bool}
    {bytes : Bytes}
    (st : ScanState σ ε)
    (hWord :
      executable = true → bytes ∉ bracketNames →
        SpellsWord bytes) :
    Keeps cfg st.names (nameOf executable bytes st) := by
  have hGrows :=
    st.names.grows_internWithin maxNameLength bytes
  unfold nameOf NameTable.intern
  dsimp only
  split
  next n names hMade =>
    rw [hMade] at hGrows
    refine ⟨hGrows, ?_⟩
    intro o ho
    cases ho
    have hBytes := (NameTable.holds_of_internWithin hMade).2
    have hName : n.Limited names executable := by
      refine ⟨NameTable.size_of_internWithin hMade, ?_, ?_⟩
      · rw [hBytes]
        exact NameTable.lookup_internWithin hMade
      · rwa [hBytes]
    exact .atom (v := .name n)
      (a := { executable := executable }) hName 0
  next cause names hMade =>
    rw [hMade] at hGrows
    exact ⟨hGrows, nofun⟩

variable [Environment ε]

/- A string that is not too long is new and literal. -/
theorem stringOf_keeps
    {x : Scanned σ Unit}
    (st : ScanState σ ε)
    (hSize : x.text.size ≤ cfg.stringLength) :
    Keeps cfg st.names (stringOf x st) := by
  rcases x with ⟨cause | _, text, s⟩
  · exact keeps_error _ { st with source := s, text := text }
  · exact keeps_atom (v := .string text)
      { st with source := s, text := text } ⟨rfl, hSize⟩

theorem base85Of_keeps
    {x : Scanned σ Bytes}
    (st : ScanState σ ε)
    (hSize :
      ∀ bytes, x.result = .ok bytes →
        bytes.size ≤ cfg.stringLength) :
    Keeps cfg st.names (base85Of x st) := by
  rcases x with ⟨cause | bytes, text, s⟩
  · exact keeps_error _ { st with source := s, text := text }
  · exact keeps_atom (v := .string bytes)
      { st with source := s, text := text }
      ⟨rfl, hSize bytes rfl⟩

/- No immediate name has a value. -/
theorem immediateOf_keeps
    (bytes : Bytes)
    (st : ScanState σ ε)
    (hNone : Environment.Nameless st.env) :
    Keeps cfg st.names (immediateOf bytes st) := by
  have hGrows :=
    st.names.grows_internWithin maxNameLength bytes
  unfold immediateOf NameTable.intern
  dsimp only
  split
  next hMade =>
    rw [hMade] at hGrows
    exact ⟨hGrows, nofun⟩
  next n names hMade =>
    rw [hMade] at hGrows
    rw [hNone.load_eq]
    exact ⟨hGrows, nofun⟩

/- A number has been spelled. -/
theorem limited_ofNumber
    {n : Number}
    (h : n.Spelled) :
    (Object.ofNumber n).Limited cfg t 0 := by
  rcases Object.ofNumber_cases n with
    ⟨v, -, hAtom⟩ | hAtom | ⟨v, rfl, hInfinite, hAtom⟩ <;>
    rw [hAtom]
  · exact .atom (v := .integer v) trivial 0
  · exact .atom (v := .infinity) trivial 0
  · exact .atom (v := .real v)
      ⟨Real.isFinite_of_ne_nan h.1 hInfinite, h.2⟩ 0

variable [ByteSource σ]

/- What is gathered behind regular bytes is regular. -/
theorem regular_gathers
    (limit : Nat)
    (text : Bytes)
    (src : σ)
    (hNonempty : text ≠ #[])
    (hText : ∀ b ∈ text, isRegular b = true) :
    (regular limit text src).text ≠ #[] ∧
      ∀ b ∈ (regular limit text src).text,
        isRegular b = true := by
  fun_induction regular limit text src with
  | case3 text src b s hNext hRegular hRoom ih =>
      apply ih
      · exact Array.push_ne_empty
      · intro c hc
        rcases Array.mem_push.mp hc with hc | rfl
        · exact hText c hc
        · exact hRegular
  | case1 | case2 | case4 | case5 | case6 =>
      exact ⟨hNonempty, hText⟩

/- A word is a number or an executable name. -/
omit [Environment ε] in
theorem word_keeps
    {first : UInt8}
    (st : ScanState σ ε)
    (hFirst : isRegular first = true) :
    Keeps cfg st.names (word cfg first st) := by
  have hGathers :=
    regular_gathers cfg.stringLength #[first] st.source
      (by simp) (by simpa using hFirst)
  unfold word
  split
  next cause text s _ =>
    exact keeps_error _ { st with source := s, text := text }
  next text s hRegular =>
    rw [hRegular] at hGathers
    split
    next cause _ =>
      exact keeps_error _
        { st with source := s, text := text }
    next n hLiteral =>
      refine ⟨.refl _, ?_⟩
      intro o ho
      cases ho
      exact limited_ofNumber (Number.spelled_ofLiteral hLiteral)
    next hNone =>
      exact nameOf_keeps { st with source := s, text := text }
        (fun _ _ => ⟨hGathers.1, hGathers.2, hNone⟩)

/- The pieces that begin with an angle bracket. -/
theorem openAngle_keeps
    (st : ScanState σ ε) :
    Keeps cfg st.names (openAngle cfg st) := by
  unfold openAngle
  split
  next m s _ => exact keeps_error _ { st with source := s }
  next s _ => exact unexpected_keeps _ { st with source := s }
  next b s _ =>
    split
    · exact nameOf_keeps { st with source := s }
        (fun _ hOther => absurd (by decide) hOther)
    · split
      · exact base85Of_keeps st
          (fun _ => Base85.size_of_read)
      · exact stringOf_keeps st (Hexadecimal.size_read _ _)

omit [Environment ε] in
theorem closeAngle_keeps
    (st : ScanState σ ε) :
    Keeps cfg st.names (closeAngle cfg st) := by
  unfold closeAngle
  split
  next m s _ => exact keeps_error _ { st with source := s }
  next s _ => exact unexpected_keeps _ { st with source := s }
  next b s _ =>
    split
    · exact nameOf_keeps { st with source := s }
        (fun _ hOther => absurd (by decide) hOther)
    · exact unexpected_keeps _ { st with source := s }

/- A literal name may have any bytes. -/
theorem slashed_keeps
    (st : ScanState σ ε)
    (hNone : Environment.Nameless st.env) :
    Keeps cfg st.names (slashed cfg st) := by
  unfold slashed
  split
  next cause s _ => exact keeps_error _ { st with source := s }
  next immediate s _ =>
    split
    next cause text s' _ =>
      exact keeps_error _
        { st with source := s', text := text }
    next text s' _ =>
      split
      · exact immediateOf_keeps text
          { st with source := s', text := text } hNone
      · exact nameOf_keeps
          { st with source := s', text := text } nofun

/-
  Without binary tokens, a byte that is neither skipped nor an
  opening brace begins an object within the limits.
-/
theorem tokenFrom_keeps
    {first : UInt8}
    (st : ScanState σ ε)
    (hText : cfg.binaryTokens = false)
    (hBegins : BeginsToken cfg first)
    (hOpening : first ≠ 0x7b)
    (hNone : Environment.Nameless st.env) :
    Keeps cfg st.names (tokenFrom cfg first st) := by
  unfold tokenFrom
  split
  · exact stringOf_keeps st (Parenthesised.size_read _ _)
  split
  · exact openAngle_keeps st
  split
  · exact closeAngle_keeps st
  split
  next hSquare =>
    refine nameOf_keeps st (fun _ hOther => absurd ?_ hOther)
    rw [Bool.or_eq_true, beq_iff_eq, beq_iff_eq] at hSquare
    rcases hSquare with rfl | rfl <;> decide
  split
  · exact unexpected_keeps first st
  split
  · exact slashed_keeps st hNone
  split
  next hBinary =>
    rw [hText, Bool.and_false] at hBinary
    cases hBinary
  next hParen hLess hGreater hSquare hClosing hSlash _ =>
    -- What is left is no delimiter.
    apply word_keeps st
    have hPercent := hBegins.notComment
    have hVisible := hBegins.notWhite
    unfold isRegular isDelimiter
    simp_all

/- What is not skipped begins a token. -/
theorem beginsToken_of_skipBlanks
    {first : UInt8}
    {st st' : ScanState σ ε}
    (h : skipBlanks cfg st = (.ok (some first), st')) :
    BeginsToken cfg first := by
  fun_induction skipBlanks cfg st with
  | case1 | case2 | case3 | case5 => cases h
  | case4 src names env text b s hNext hPercent _ gathered s'
      hComment ih => exact ih h
  | case6 src names env text b s hNext hPercent hMark hWhite
      ih => exact ih h
  | case7 src names env text b s hNext hPercent hMark hWhite =>
      cases h
      rw [beq_iff_eq] at hPercent
      exact ⟨Bool.eq_false_of_not_eq_true hWhite, hPercent,
        Bool.eq_false_of_not_eq_true hMark⟩

/- Skipping adds no names. -/
theorem names_skipBlanks
    (cfg : ScanSettings)
    (st : ScanState σ ε) :
    (skipBlanks cfg st).2.names = st.names := by
  fun_induction skipBlanks cfg st with
  | case1 | case2 | case3 | case5 | case7 => rfl
  | case4 src names env text b s hNext hPercent _ gathered s'
      hComment ih => exact ih
  | case6 src names env text b s hNext hPercent hMark hWhite
      ih => exact ih

/- The piece that begins with a byte is within the limits. -/
theorem readFrom_limited
    {nested : Bool}
    {first : UInt8}
    {st' : ScanState σ ε}
    {l : Lexeme}
    (st : ScanState σ ε)
    (hText : cfg.binaryTokens = false)
    (hBegins : BeginsToken cfg first)
    (hNone : Environment.Nameless st.env)
    (hRead : readFrom cfg nested first st = (.ok l, st')) :
    st.names.Grows st'.names ∧
      ∀ o, l = .object o → o.Limited cfg st'.names 0 := by
  unfold readFrom at hRead
  split at hRead
  · cases hRead
    exact ⟨.refl _, nofun⟩
  next hOpening =>
    rw [beq_iff_eq] at hOpening
    have hKeeps :=
      tokenFrom_keeps st hText hBegins hOpening hNone
    split at hRead
    · cases hRead
      exact ⟨.refl _, nofun⟩
    split at hRead
    next o st'' hToken =>
      cases hRead
      rw [hToken] at hKeeps
      refine ⟨hKeeps.names, ?_⟩
      intro o' ho'
      cases ho'
      exact hKeeps.object o rfl
    next => cases hRead

/- So are all pieces of a text. -/
theorem read_limited
    {nested : Bool}
    {st st' : ScanState σ ε}
    {l : Lexeme}
    (hText : cfg.binaryTokens = false)
    (hNone : Environment.Nameless st.env)
    (hRead : read cfg nested st = (.ok l, st')) :
    st.names.Grows st'.names ∧
      ∀ o, l = .object o → o.Limited cfg st'.names 0 := by
  have hHears :=
    Scanner.Manner.skipBlanks_changes
      (M := Scanner.hearing) cfg st
  have hNames := names_skipBlanks cfg st
  unfold read at hRead
  split at hRead
  · cases hRead
  next st₁ hSkip =>
    rw [hSkip] at hNames
    cases hRead
    rw [← hNames]
    exact ⟨.refl _, nofun⟩
  next first st₁ hSkip =>
    rw [hSkip] at hNames hHears
    rw [← hNames]
    exact readFrom_limited { st₁ with text := #[] } hText
      (beginsToken_of_skipBlanks hSkip) (hNone.hears hHears)
      hRead

end Lexeme

------------------------------------------------------------
-- Procedures
------------------------------------------------------------

namespace Scanner

/-
  The procedures that are open, inside which so many more may
  be opened. Their elements nest no deeper than that, and they
  have no more of them than is allowed.
-/
inductive Bounded
    (cfg : ScanSettings)
    (t : NameTable) : Nat → OpenProcedures → Prop where
  | outside :
      Bounded cfg t cfg.procedureDepth []
  | inside
      {room : Nat}
      {elements : Array Object}
      {outer : OpenProcedures}
      (hElements : ∀ e ∈ elements, e.Limited cfg t room)
      (hCount : elements.size ≤ cfg.arrayLength)
      (hOuter : Bounded cfg t (room + 1) outer) :
      Bounded cfg t room (elements :: outer)

variable {room : Nat}
variable {outer : OpenProcedures}

/- They stay so while names are added. -/
theorem Bounded.mono
    (h : Bounded cfg t room outer)
    (hGrows : t.Grows t') :
    Bounded cfg t' room outer := by
  induction h with
  | outside => exact .outside
  | inside hElements hCount _ ih =>
      exact .inside (fun e he => (hElements e he).mono hGrows)
        hCount ih

/- The room and the procedures that are open are all. -/
theorem Bounded.room_add_length
    (h : Bounded cfg t room outer) :
    room + outer.length = cfg.procedureDepth := by
  induction h with
  | outside => rfl
  | inside _ _ _ ih =>
      rw [List.length_cons, ← ih]
      omega

/- What a step leads to is within the limits. -/
def Limits
    (cfg : ScanSettings)
    (t : NameTable) : Step → Prop
  | .answer r =>
      ∀ o, r = .ok (some o) →
        o.Limited cfg t cfg.procedureDepth
  | .more outer => ∃ room, Bounded cfg t room outer

/- An object is put where there is room for it. -/
theorem place_limits
    {o : Object}
    (hOuter : Bounded cfg t room outer)
    (ho : o.Limited cfg t room) :
    Limits cfg t (place cfg outer o) := by
  cases hOuter with
  | outside =>
      intro o' ho'
      cases ho'
      exact ho
  | @inside _ elements outer hElements hCount hOuter =>
      unfold place
      dsimp only
      split
      next hRoom =>
        refine ⟨room, .inside ?_ ?_ hOuter⟩
        · intro e he
          rcases Array.mem_push.mp he with he | rfl
          · exact hElements e he
          · exact ho
        · rwa [Array.size_push]
      next => exact nofun

/- A procedure is opened where there is room for one more. -/
theorem openProcedure_limits
    (hOuter : Bounded cfg t room outer) :
    Limits cfg t (openProcedure cfg outer) := by
  have hSum := hOuter.room_add_length
  unfold openProcedure
  split
  next hDepth =>
    cases room with
    | zero => omega
    | succ room =>
        exact ⟨room, .inside (fun e he => by simp at he)
          (Nat.zero_le _) hOuter⟩
  next => exact nofun

section Steps

variable {ε : Type}
variable [Environment ε]

/- A procedure that is closed takes one level of the room. -/
theorem closeProcedure_limits
    (env : ε)
    (hOuter : Bounded cfg t room outer) :
    Limits cfg t (closeProcedure cfg env outer) := by
  cases hOuter with
  | outside => exact nofun
  | @inside _ elements outer hElements hCount hOuter =>
      unfold closeProcedure
      dsimp only
      split
      next o hMake =>
        rcases makeArray_ok hMake with ⟨rfl, hLength, -⟩
        refine place_limits hOuter (.array ?_ ?_ rfl)
        · intro e he
          exact hElements e (Array.mem_toList_iff.mp he)
        · exact Nat.le_min.mpr ⟨hCount, hLength⟩
      next => exact nofun

/- Whatever piece is read, the step stays in the limits. -/
theorem step_limits
    {l : Lexeme}
    (env : ε)
    (hOuter : Bounded cfg t room outer)
    (hPiece : ∀ o, l = .object o → o.Limited cfg t 0) :
    Limits cfg t (step cfg env outer l) := by
  cases l with
  | object o =>
      exact place_limits hOuter ((hPiece o rfl).of_flat room)
  | opening => exact openProcedure_limits hOuter
  | closing => exact closeProcedure_limits env hOuter
  | ended =>
      unfold step
      dsimp only
      split
      · exact nofun
      · exact nofun

end Steps

variable {σ ε : Type}
variable [ByteSource σ]
variable [Environment ε]

/- The object behind open procedures is within the limits. -/
theorem readObject_limited
    (st : ScanState σ ε)
    (hText : cfg.binaryTokens = false)
    (hNone : Environment.Nameless st.env)
    (hOuter : Bounded cfg st.names room outer) :
    ∀ o, (readObject cfg outer st).1 = .ok (some o) →
      o.Limited cfg (readObject cfg outer st).2.names
        cfg.procedureDepth := by
  fun_induction readObject cfg outer st generalizing room with
  | case1 =>
      intro o ho
      cases ho
  | case2 outer st l st' hRead r hStep =>
      rcases Lexeme.read_limited hText hNone hRead with
        ⟨hGrows, hPiece⟩
      have hLimits :=
        step_limits st'.env (hOuter.mono hGrows) hPiece
      rw [hStep] at hLimits
      exact hLimits
  | case3 outer st l st' hRead outer' hStep ih =>
      rcases Lexeme.read_limited hText hNone hRead with
        ⟨hGrows, hPiece⟩
      have hLimits :=
        step_limits st'.env (hOuter.mono hGrows) hPiece
      rw [hStep] at hLimits
      have hHears :
          Environment.Hears st.env
            (Lexeme.read cfg (!outer.isEmpty) st).2.env :=
        (Manner.read_yields (M := hearing) cfg _ trivial).1
      rw [hRead] at hHears
      rcases hLimits with ⟨room', hOuter'⟩
      exact ih (hNone.hears hHears) hOuter'

end Scanner

end PostScript
