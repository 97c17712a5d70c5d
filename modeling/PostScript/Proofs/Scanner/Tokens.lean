import PostScript.Dictionary.Stack
import PostScript.Proofs.Environment.Sealed
import PostScript.Proofs.Scanner.Rendering

/-
  This file shows that the scanner finds every tree where a
  text renders it: integers, names and strings as one piece
  each, and procedures between the pieces of their braces.

  Key definitions include:
    * `Environment.StaysLocal`
    * `ScanState.Reaches`
    * `ScanState.Found`
    * `ScanState.Finds`
    * `Hexadecimal.Begins`
    * `Lexeme.BeginsObject`

  Main results:
    * `Lexeme.tokenFrom_finds`
    * `Lexeme.read_simple`
    * `Lexeme.read_opening`
    * `Lexeme.read_closing`
    * `Lexeme.read_atEnd`
-/

namespace PostScript

open ByteSource

------------------------------------------------------------
-- Environments
------------------------------------------------------------

section Environments

variable {ε : Type}
variable [Environment ε]

/-
  New objects are local and outside of all saves, whatever
  comments are heard.
-/
def Environment.StaysLocal
    (env : ε) : Prop :=
  ∀ env', Environment.Hears env env' →
    Environment.vm env' = .localVm ∧
      Environment.level env' = 0

/- This holds on when comments are heard. -/
theorem Environment.StaysLocal.hears
    {env env' : ε}
    (h : Environment.StaysLocal env)
    (hHears : Environment.Hears env env') :
    Environment.StaysLocal env' :=
  fun _ hMore => h _ (hHears.trans hMore)

/- New objects have default attributes. -/
theorem Environment.StaysLocal.newAttrs
    {env : ε}
    (h : Environment.StaysLocal env) :
    Environment.newAttrs env = {} := by
  rcases h env (.refl env) with ⟨hVm, hLevel⟩
  rw [Environment.newAttrs, hVm, hLevel]
  rfl

/- In local memory any objects may be put into an array. -/
theorem Environment.StaysLocal.makeArray
    {env : ε}
    {es : List Object}
    (h : Environment.StaysLocal env)
    (executable : Bool)
    (hLength : es.length ≤ maxArrayLength) :
    makeArray env executable es =
      .ok (.array es { executable := executable }) := by
  have hLegal :
      ∀ e ∈ es,
        e.isIllegalIn (Environment.vm env) = false := by
    intro e _
    rw [(h env (.refl env)).1]
    rfl
  rw [makeArray_of_legal executable hLength hLegal,
    h.newAttrs]

/- The environment without bindings stays local. -/
theorem staysLocal_unit : Environment.StaysLocal () :=
  fun _ _ => ⟨rfl, rfl⟩

/- A scope that is local stays so. -/
theorem Scope.staysLocal
    {scope : Scope}
    (hVm : scope.stack.vm = .localVm)
    (hLevel : scope.stack.level = 0) :
    Environment.StaysLocal scope := by
  rintro env' ⟨heard, rfl⟩
  induction heard generalizing scope with
  | nil => exact ⟨hVm, hLevel⟩
  | cons text heard ih => exact ih hVm hLevel

end Environments

------------------------------------------------------------
-- States
------------------------------------------------------------

variable {σ ε : Type}
variable [ByteSource σ]
variable [Environment ε]

namespace ScanState

/-
  What a state is after some text has been read: the rest of
  the text is supplied, and only names and comments have been
  added.
-/
structure Reaches
    (st st' : ScanState σ ε)
    (rest : List UInt8) : Prop where
  source : Supplies st'.source rest
  names : st.names.Grows st'.names
  env : Environment.Hears st.env st'.env

/- Two pieces of text are read one behind the other. -/
theorem Reaches.trans
    {st st' st'' : ScanState σ ε}
    {rest rest' : List UInt8}
    (h : st.Reaches st' rest)
    (h' : st'.Reaches st'' rest') :
    st.Reaches st'' rest' :=
  ⟨h'.source, h.names.trans h'.names, h.env.trans h'.env⟩

/- A state that differs in its source and its text alone. -/
theorem reaches_source
    {st : ScanState σ ε}
    {s : σ}
    {rest : List UInt8}
    (text : Bytes)
    (h : Supplies s rest) :
    st.Reaches ⟨s, st.names, st.env, text⟩ rest :=
  ⟨h, .refl _, .refl _⟩

/-
  A tree was read in front of a text: the object is the one it
  stands for, and at most one byte of white space behind it is
  gone.
-/
def Found
    (st : ScanState σ ε)
    (x : Tree)
    (tail : List UInt8)
    (o : Object)
    (st' : ScanState σ ε) : Prop :=
  ∃ left,
    st.Reaches st' left ∧ Follows tail left ∧
      x.object? st'.names = some o

/- A result that is the object of a tree. -/
def Finds
    (st : ScanState σ ε)
    (x : Tree)
    (tail : List UInt8)
    (r : Except Cause Object × ScanState σ ε) : Prop :=
  ∃ o st', r = (.ok o, st') ∧ st.Found x tail o st'

/- A tree may be read behind some other text. -/
theorem Reaches.finds
    {st st' : ScanState σ ε}
    {rest tail : List UInt8}
    {x : Tree}
    {r : Except Cause Object × ScanState σ ε}
    (h : st.Reaches st' rest)
    (hFinds : st'.Finds x tail r) :
    st.Finds x tail r := by
  rcases hFinds with
    ⟨o, st'', hResult, left, hReaches, hLeft, hObject⟩
  exact ⟨o, st'', hResult, left, h.trans hReaches, hLeft,
    hObject⟩

end ScanState

------------------------------------------------------------
-- Tokens
------------------------------------------------------------

/-
  Nothing but hexadecimal digits can be meant by what stands
  behind the bracket.
-/
def Hexadecimal.Begins
    (cfg : ScanSettings)
    (input : List UInt8) : Prop :=
  (input.head? = some (code '<') →
      cfg.knowsDictNames = false) ∧
    (input.head? = some (code '~') → cfg.languageLevel < 2)

namespace Lexeme

open ScanState

variable {cfg : ScanSettings}
variable {st : ScanState σ ε}
variable {tail : List UInt8}

/- A name that is not too long is found or made. -/
theorem nameOf_finds
    {bytes : Bytes}
    {left : List UInt8}
    (executable : Bool)
    (hShort : bytes.size ≤ maxNameLength)
    (hSource : Supplies st.source left)
    (hLeft : Follows tail left) :
    st.Finds (.name bytes executable) tail
      (nameOf executable bytes st) := by
  rcases st with ⟨src, names, env, text⟩
  rcases names.internWithin_ok hShort with
    ⟨n, names', hIntern⟩
  have hGrows := names.grows_internWithin maxNameLength bytes
  rw [hIntern] at hGrows
  refine ⟨.name n executable, ⟨src, names', env, text⟩, ?_,
    left, ⟨hSource, hGrows, .refl _⟩, hLeft, ?_⟩
  · unfold nameOf
    dsimp only
    rw [NameTable.intern, hIntern]
  · rw [Tree.object?, NameTable.lookup_internWithin hIntern]
    rfl

/- A string is found where its bytes have been gathered. -/
theorem stringOf_finds
    {bytes : Bytes}
    {s : σ}
    (hLocal : Environment.StaysLocal st.env)
    (hTail : Supplies s tail) :
    st.Finds (.string bytes) tail
      (stringOf ⟨.ok (), bytes, s⟩ st) := by
  refine ⟨_, _, rfl, tail, reaches_source bytes hTail,
    .inl rfl, ?_⟩
  rw [hLocal.newAttrs]
  rfl

/- The same for a string in base 85. -/
theorem base85Of_finds
    {bytes text : Bytes}
    {s : σ}
    (hLocal : Environment.StaysLocal st.env)
    (hTail : Supplies s tail) :
    st.Finds (.string bytes) tail
      (base85Of ⟨.ok bytes, text, s⟩ st) := by
  refine ⟨_, _, rfl, tail, reaches_source text hTail,
    .inl rfl, ?_⟩
  rw [hLocal.newAttrs]
  rfl

------------------------------------------------------------
-- Words
------------------------------------------------------------

/- A regular byte is none of the others. -/
theorem ne_of_regular
    {b d : UInt8}
    (hRegular : isRegular b = true)
    (hOther : isRegular d = false) :
    b ≠ d := by
  rintro rfl
  rw [hRegular] at hOther
  contradiction

/- A regular byte begins a word, unless it is a binary one. -/
theorem tokenFrom_regular
    {b : UInt8}
    (st : ScanState σ ε)
    (hRegular : isRegular b = true)
    (hText :
      cfg.binaryTokens = true →
        BinaryToken.isLead b = false) :
    tokenFrom cfg b st = word cfg b st := by
  have hBinary :
      ¬ (BinaryToken.isLead b && cfg.binaryTokens) = true := by
    rw [Bool.and_eq_true]
    rintro ⟨hLead, hSet⟩
    rw [hText hSet] at hLead
    contradiction
  unfold isRegular isDelimiter at hRegular
  simp only [Bool.and_eq_true, Bool.not_eq_true',
    Bool.or_eq_false_iff] at hRegular
  unfold tokenFrom
  rw [if_neg hBinary]
  simp [hRegular]

/- The bytes of a word are gathered. -/
omit [Environment ε] in
theorem regular_word
    {b : UInt8}
    {bytes : List UInt8}
    (hRegular : ∀ c ∈ b :: bytes, isRegular c = true)
    (hFits : (b :: bytes).length ≤ max 1 cfg.stringLength)
    (hEnd : Irregular tail)
    (hSource : Supplies st.source (bytes ++ tail)) :
    ∃ s left,
      regular cfg.stringLength #[b] st.source =
          ⟨.ok (), (b :: bytes).toArray, s⟩ ∧
        Supplies s left ∧ Follows tail left := by
  have hLimit :
      (#[b] : Bytes).size + bytes.length ≤
        max (#[b] : Bytes).size cfg.stringLength := by
    rw [List.length_cons, Nat.add_comm] at hFits
    exact hFits
  rcases regular_token
      (fun c hc => hRegular c (List.mem_cons_of_mem _ hc))
      hEnd hLimit hSource with
    ⟨s, left, hGather, hLeft, hFollows⟩
  refine ⟨s, left, ?_, hLeft, hFollows⟩
  rw [hGather]
  simp

/- A word that is no number is an executable name. -/
theorem word_finds
    {b : UInt8}
    {bytes : List UInt8}
    (hWord : IsWord cfg (b :: bytes))
    (hEnd : TokenEnd tail)
    (hSource : Supplies st.source (bytes ++ tail)) :
    st.Finds (.name (b :: bytes).toArray true) tail
      (word cfg b st) := by
  rcases regular_word hWord.regular
      (hWord.fits.trans (Nat.le_max_right _ _))
      hEnd.irregular hSource with
    ⟨s, left, hGather, hLeft, hFollows⟩
  unfold word
  rw [hGather]
  dsimp only
  rw [hWord.notNumber]
  exact (reaches_source _ hLeft).finds
    (nameOf_finds true hWord.length_le hLeft hFollows)

/- A numeral is an integer. -/
theorem word_finds_integer
    {b : UInt8}
    {bytes : List UInt8}
    {v : Int32}
    (hNumeral : Numeral (b :: bytes) v.toInt)
    (hFits : (b :: bytes).length ≤ cfg.stringLength)
    (hEnd : TokenEnd tail)
    (hSource : Supplies st.source (bytes ++ tail)) :
    st.Finds (.integer v) tail (word cfg b st) := by
  rcases regular_word hNumeral.regular
      (hFits.trans (Nat.le_max_right _ _)) hEnd.irregular
      hSource with
    ⟨s, left, hGather, hLeft, hFollows⟩
  refine ⟨.integer v, _, ?_, left,
    reaches_source (b :: bytes).toArray hLeft, hFollows, rfl⟩
  unfold word
  rw [hGather]
  dsimp only
  rw [Number.ofLiteral_numeral hNumeral]
  rfl

------------------------------------------------------------
-- Literal Names
------------------------------------------------------------

/- A slash that is not doubled begins a literal name. -/
theorem secondSlash_none
    {src : σ}
    {text : List UInt8}
    (hText : ∀ rest, text ≠ code '/' :: rest)
    (hSource : Supplies src text) :
    ∃ s, secondSlash src = (.ok false, s) ∧
      Supplies s text := by
  cases text with
  | nil =>
      rcases hSource.atEnd with ⟨s, hNext, hRest⟩
      refine ⟨s, ?_, hRest⟩
      unfold secondSlash
      rw [hNext]
  | cons b rest =>
      have hOther : ¬ (b == code '/') = true := by
        rw [beq_iff_eq]
        rintro rfl
        exact hText rest rfl
      rcases hSource.byte with ⟨s, hNext, -, hBack⟩
      refine ⟨pushBack b s, ?_, hBack⟩
      unfold secondSlash
      rw [hNext]
      dsimp only
      rw [if_neg hOther]

/- Regular bytes behind a slash are a literal name. -/
theorem slashed_finds
    {bytes : List UInt8}
    (hName : IsName cfg bytes)
    (hEnd : TokenEnd tail)
    (hSource : Supplies st.source (bytes ++ tail)) :
    st.Finds (.name bytes.toArray false) tail
      (slashed cfg st) := by
  have hSlash : ∀ rest, bytes ++ tail ≠ code '/' :: rest := by
    rintro rest hText
    cases bytes with
    | nil =>
        rw [List.nil_append] at hText
        rw [hText] at hEnd
        exact hEnd.ne_slash rfl
    | cons b bytes =>
        have hRegular := hName.regular b List.mem_cons_self
        rw [(List.cons.inj hText).1] at hRegular
        revert hRegular
        decide
  have hLimit :
      (#[] : Bytes).size + bytes.length ≤
        cfg.stringLength := by
    simpa using hName.fits
  rcases secondSlash_none hSlash hSource with
    ⟨s, hSecond, hText⟩
  rcases regular_token hName.regular hEnd.irregular
      (hLimit.trans (Nat.le_max_right _ _)) hText with
    ⟨s', left, hGather, hLeft, hFollows⟩
  unfold slashed
  rw [hSecond]
  dsimp only
  rw [hGather, Array.empty_append]
  exact (reaches_source _ hLeft).finds
    (nameOf_finds false hName.length_le hLeft hFollows)

------------------------------------------------------------
-- Strings
------------------------------------------------------------

/-
  The text of hexadecimal digits begins neither like a name
  nor like a string in base 85.
-/
theorem head_hexadecimal
    {text bytes rest : List UInt8}
    {b : UInt8}
    (hSpells : Hexadecimal.Spells text bytes)
    (hText : text ++ code '>' :: tail = b :: rest) :
    b ≠ code '<' ∧ b ≠ code '~' := by
  cases text with
  | nil =>
      rw [← (List.cons.inj hText).1]
      decide
  | cons c text =>
      rw [← (List.cons.inj hText).1]
      cases hWhite : isWhitespace c with
      | true =>
          constructor
          · rintro rfl
            revert hWhite
            decide
          · rintro rfl
            revert hWhite
            decide
      | false =>
          rw [Hexadecimal.Spells,
            visible_cons text hWhite] at hSpells
          rcases hSpells.head with ⟨d, hDigit⟩
          constructor
          · rintro rfl
            revert hDigit
            decide +revert
          · rintro rfl
            revert hDigit
            decide +revert

/- So nothing else can be meant by it. -/
theorem begins_hexadecimal
    {text bytes : List UInt8}
    (hSpells : Hexadecimal.Spells text bytes) :
    Hexadecimal.Begins cfg (text ++ code '>' :: tail) := by
  have hHead :
      ∀ b, (text ++ code '>' :: tail).head? = some b →
        b ≠ code '<' ∧ b ≠ code '~' := by
    intro b hb
    rcases List.head?_eq_some_iff.mp hb with ⟨rest, hText⟩
    exact head_hexadecimal hSpells hText
  exact ⟨fun h => absurd rfl (hHead _ h).1,
    fun h => absurd rfl (hHead _ h).2⟩

/- The first byte behind the bracket is given back. -/
theorem openAngle_hexadecimal
    {input : List UInt8}
    (hBegins : Hexadecimal.Begins cfg input)
    (hInput : input ≠ [])
    (hSource : Supplies st.source input) :
    ∃ s,
      openAngle cfg st =
          stringOf (Hexadecimal.read cfg.stringLength s) st ∧
        Supplies s input := by
  cases input with
  | nil => contradiction
  | cons b rest =>
      rcases hBegins with ⟨hDict, hBase85⟩
      have hName :
          ¬ (b == code '<' && cfg.knowsDictNames) = true := by
        rw [Bool.and_eq_true, beq_iff_eq]
        rintro ⟨rfl, hKnown⟩
        rw [hDict rfl] at hKnown
        contradiction
      have hText :
          ¬ (b == code '~' && cfg.knowsBase85) = true := by
        rw [Bool.and_eq_true, beq_iff_eq]
        rintro ⟨rfl, hKnown⟩
        exact absurd (of_decide_eq_true hKnown)
          (Nat.not_le_of_lt (hBase85 rfl))
      rcases hSource.byte with ⟨s, hNext, -, hBack⟩
      refine ⟨pushBack b s, ?_, hBack⟩
      unfold openAngle
      rw [hNext]
      dsimp only
      rw [if_neg hName, if_neg hText]

/- Hexadecimal digits in angle brackets are a string. -/
theorem openAngle_finds
    {text : List UInt8}
    {bytes : Bytes}
    (hSpells : Hexadecimal.Spells text bytes.toList)
    (hFits : bytes.size ≤ cfg.stringLength)
    (hLocal : Environment.StaysLocal st.env)
    (hSource :
      Supplies st.source (text ++ code '>' :: tail)) :
    st.Finds (.string bytes) tail (openAngle cfg st) := by
  -- There is a first byte, at the latest the closing bracket.
  rcases openAngle_hexadecimal (begins_hexadecimal hSpells)
      (List.append_ne_nil_of_right_ne_nil text
        (List.cons_ne_nil _ _)) hSource with
    ⟨s, hAngle, hText⟩
  rcases Hexadecimal.read_spelled hSpells hFits hText with
    ⟨s', hRead, hTail⟩
  rw [hAngle, hRead]
  exact stringOf_finds hLocal hTail

/- A text in base 85 between its brackets is a string. -/
theorem openAngle_finds_base85
    {text : List UInt8}
    {bytes : Bytes}
    (hLevel : 2 ≤ cfg.languageLevel)
    (hSpells : Base85.Spells text bytes.toList)
    (hFits : bytes.size ≤ cfg.stringLength)
    (hLocal : Environment.StaysLocal st.env)
    (hSource :
      Supplies st.source
        (code '~' ::
          (text ++ code '~' :: code '>' :: tail))) :
    st.Finds (.string bytes) tail (openAngle cfg st) := by
  have hKnown :
      (code '~' == code '~' && cfg.knowsBase85) = true := by
    simp [ScanSettings.knowsBase85, hLevel]
  have hName :
      ¬ (code '~' == code '<' && cfg.knowsDictNames) =
        true := by
    rw [Bool.and_eq_true]
    rintro ⟨hSame, -⟩
    revert hSame
    decide
  rcases hSource.byte with ⟨s, hNext, hText, -⟩
  rcases Base85.read_spelled hSpells hFits hText with
    ⟨gathered, s', hRead, hTail⟩
  unfold openAngle
  rw [hNext]
  dsimp only
  rw [if_neg hName, if_pos hKnown, hRead]
  exact base85Of_finds hLocal hTail

/- A text between parentheses is a string. -/
theorem tokenFrom_finds_parenthesised
    {text : List UInt8}
    {bytes : Bytes}
    (hSpells : Parenthesised.Spells text bytes.toList)
    (hOpen : Parenthesised.mostOpen text < 2 ^ 32)
    (hFits : bytes.size ≤ cfg.stringLength)
    (hLocal : Environment.StaysLocal st.env)
    (hSource :
      Supplies st.source (text ++ code ')' :: tail)) :
    st.Finds (.string bytes) tail
      (tokenFrom cfg (code '(') st) := by
  rcases Parenthesised.read_spelled hSpells hOpen hFits hSource
    with ⟨s, hRead, hTail⟩
  unfold tokenFrom
  rw [if_pos (beq_self_eq_true _), hRead]
  exact stringOf_finds hLocal hTail

------------------------------------------------------------
-- Objects
------------------------------------------------------------

/- A byte that begins an object other than a procedure. -/
structure BeginsObject
    (cfg : ScanSettings)
    (b : UInt8) : Prop extends BeginsToken cfg b where
  notOpening : b ≠ 0x7b
  notClosing : b ≠ 0x7d

/- Only one byte ever ends the input. -/
theorem isEndMark_of_ne
    {b : UInt8}
    (cfg : ScanSettings)
    (h : b ≠ 0x04) :
    isEndMark cfg b = false := by
  rw [isEndMark, beq_eq_false_iff_ne.mpr h, Bool.and_false]

/- Regular bytes begin objects. -/
theorem beginsObject_regular
    {b : UInt8}
    (hRegular : isRegular b = true)
    (hEnd : isEndMark cfg b = false) :
    BeginsObject cfg b where
  notWhite := by
    rw [isRegular, Bool.and_eq_true, Bool.not_eq_true']
      at hRegular
    exact hRegular.1
  notComment := ne_of_regular hRegular (by decide)
  notEnd := hEnd
  notOpening := ne_of_regular hRegular (by decide)
  notClosing := ne_of_regular hRegular (by decide)

/- The first byte of a token begins an object. -/
theorem beginsObject_token
    {b : UInt8}
    {bytes : List UInt8}
    (h : IsToken cfg (b :: bytes)) :
    BeginsObject cfg b := by
  apply beginsObject_regular
    (h.regular b List.mem_cons_self)
  cases hSet : cfg.controlDEnds with
  | false => rw [isEndMark, hSet, Bool.false_and]
  | true =>
      apply isEndMark_of_ne
      rintro rfl
      exact h.notEnd hSet rfl

/- So do the delimiters in front of names and strings. -/
theorem beginsObject_delimiter
    {b : UInt8}
    (cfg : ScanSettings)
    (h : b = code '/' ∨ b = code '<' ∨ b = code '(') :
    BeginsObject cfg b := by
  rcases h with rfl | rfl | rfl <;>
    exact ⟨⟨by decide, by decide,
      isEndMark_of_ne cfg (by decide)⟩, by decide, by decide⟩

/- A digit or a sign means nothing but itself. -/
theorem plain_of_digit
    {b : UInt8}
    (h : isDigit b = true ∨ b = code '+' ∨ b = code '-') :
    b ≠ 0x04 ∧ BinaryToken.isLead b = false := by
  rcases h with hDigit | rfl | rfl
  · revert hDigit
    exact forall_byte
      (p := fun b => isDigit b = true →
        b ≠ 0x04 ∧ BinaryToken.isLead b = false)
      (by decide +kernel) b
  · decide
  · decide

/-
  A text that renders a tree begins with a byte from which the
  tree is read, unless it is a procedure.
-/
theorem tokenFrom_finds
    {x : Tree}
    {text : List UInt8}
    (hText : Renders cfg x text)
    (hSimple : ∀ items, x ≠ .procedure items)
    (hEnd : TokenEnd tail) :
    ∃ b rest,
      text = b :: rest ∧ BeginsObject cfg b ∧
        ∀ st : ScanState σ ε,
          Environment.StaysLocal st.env →
            Supplies st.source (rest ++ tail) →
              st.Finds x tail (tokenFrom cfg b st) := by
  cases hText with
  | integer hNumeral hFits =>
      rcases hNumeral.head with ⟨b, bytes, rfl, hHead⟩
      rcases plain_of_digit hHead with ⟨hMark, hLead⟩
      have hRegular := hNumeral.regular b List.mem_cons_self
      refine ⟨b, bytes, rfl,
        beginsObject_regular hRegular
          (isEndMark_of_ne cfg hMark), ?_⟩
      intro st hLocal hSource
      rw [tokenFrom_regular st hRegular (fun _ => hLead)]
      exact word_finds_integer hNumeral hFits hEnd hSource
  | @executable bytes hWord =>
      rcases bytes with ⟨bytes⟩
      cases bytes with
      | nil => exact absurd rfl hWord.nonempty
      | cons b bytes =>
          refine ⟨b, bytes, rfl,
            beginsObject_token hWord.isToken, ?_⟩
          intro st hLocal hSource
          rw [tokenFrom_regular st
            (hWord.regular b List.mem_cons_self)
            (fun hSet => hWord.notBinary hSet b rfl)]
          exact word_finds hWord hEnd hSource
  | literal hName =>
      refine ⟨code '/', _, rfl, ?_, ?_⟩
      · exact beginsObject_delimiter cfg (.inl rfl)
      · intro st hLocal hSource
        exact slashed_finds hName hEnd hSource
  | hexadecimal hSpells hFits =>
      refine ⟨code '<', _, rfl, ?_, ?_⟩
      · exact beginsObject_delimiter cfg (.inr (.inl rfl))
      · intro st hLocal hSource
        rw [List.append_assoc] at hSource
        exact openAngle_finds hSpells hFits hLocal hSource
  | parenthesised hSpells hOpen hFits =>
      refine ⟨code '(', _, rfl, ?_, ?_⟩
      · exact beginsObject_delimiter cfg (.inr (.inr rfl))
      · intro st hLocal hSource
        rw [List.append_assoc] at hSource
        exact tokenFrom_finds_parenthesised hSpells hOpen hFits
          hLocal hSource
  | base85 hLevel hSpells hFits =>
      refine ⟨code '<', _, rfl, ?_, ?_⟩
      · exact beginsObject_delimiter cfg (.inr (.inl rfl))
      · intro st hLocal hSource
        rw [List.cons_append, List.append_assoc] at hSource
        exact openAngle_finds_base85 hLevel hSpells hFits
          hLocal hSource
  | procedure => exact absurd rfl (hSimple _)

------------------------------------------------------------
-- Pieces
------------------------------------------------------------

/- Blanks are skipped in front of a piece. -/
theorem read_blanks
    {blanks rest : List UInt8}
    {b : UInt8}
    (nested : Bool)
    (hBlanks : Blanks blanks)
    (hBegins : BeginsToken cfg b)
    (hSource : Supplies st.source (blanks ++ b :: rest)) :
    ∃ st',
      read cfg nested st = readFrom cfg nested b st' ∧
        st.Reaches st' rest := by
  rcases st with ⟨src, names, env, text⟩
  rcases skipBlanks_blanks cfg names env text hBlanks
      hSource with
    ⟨s, env', text', hSkip, hToken, hHears⟩
  rcases skipBlanks_token names env' text' hBegins hToken with
    ⟨s', hStop, hRest⟩
  refine ⟨⟨s', names, env', #[]⟩, ?_,
    ⟨hRest, .refl _, hHears⟩⟩
  unfold read
  rw [hSkip, hStop]

/- Behind the last blanks the text ends. -/
theorem read_atEnd
    {blanks : List UInt8}
    (cfg : ScanSettings)
    (nested : Bool)
    (hBlanks : Blanks blanks)
    (hSource : Supplies st.source blanks) :
    ∃ st',
      read cfg nested st = (.ok .ended, st') ∧
        st.Reaches st' [] := by
  rcases st with ⟨src, names, env, text⟩
  rw [← List.append_nil blanks] at hSource
  rcases skipBlanks_blanks cfg names env text hBlanks
      hSource with
    ⟨s, env', text', hSkip, hNothing, hHears⟩
  rcases skipBlanks_atEnd cfg names env' text' hNothing with
    ⟨s', hStop, hRest⟩
  refine ⟨⟨s', names, env', text'⟩, ?_,
    ⟨hRest, .refl _, hHears⟩⟩
  unfold read
  rw [hSkip, hStop]

/- Where an object begins, it is read as one piece. -/
theorem readFrom_object
    {b : UInt8}
    (nested : Bool)
    (st : ScanState σ ε)
    (hBegins : BeginsObject cfg b) :
    readFrom cfg nested b st =
      match tokenFrom cfg b st with
      | (.ok o, st') => (.ok (.object o), st')
      | (.error cause, st') => (.error cause, st') := by
  have hOpening : ¬ (b == 0x7b) = true := by
    rw [beq_iff_eq]
    exact hBegins.notOpening
  have hClosing : ¬ (b == 0x7d && nested) = true := by
    rw [Bool.and_eq_true, beq_iff_eq]
    exact fun h => hBegins.notClosing h.1
  exact (if_neg hOpening).trans (if_neg hClosing)

/- A tree that is no procedure is one piece. -/
theorem read_simple
    {x : Tree}
    {blanks text : List UInt8}
    (nested : Bool)
    (hBlanks : Blanks blanks)
    (hText : Renders cfg x text)
    (hSimple : ∀ items, x ≠ .procedure items)
    (hEnd : TokenEnd tail)
    (hLocal : Environment.StaysLocal st.env)
    (hSource :
      Supplies st.source (blanks ++ (text ++ tail))) :
    ∃ o st',
      read cfg nested st = (.ok (.object o), st') ∧
        st.Found x tail o st' := by
  rcases @tokenFrom_finds σ ε _ _ cfg tail x text hText
      hSimple hEnd with
    ⟨b, rest, rfl, hBegins, hToken⟩
  rcases read_blanks nested hBlanks hBegins.toBeginsToken
      hSource with
    ⟨st₁, hRead, hReaches⟩
  rcases hReaches.finds
      (hToken st₁ (hLocal.hears hReaches.env)
        hReaches.source) with
    ⟨o, st', hResult, hFound⟩
  refine ⟨o, st', ?_, hFound⟩
  rw [hRead, readFrom_object nested st₁ hBegins, hResult]

/- The braces of a procedure begin tokens. -/
theorem beginsToken_brace
    {b : UInt8}
    (cfg : ScanSettings)
    (h : b = 0x7b ∨ b = 0x7d) :
    BeginsToken cfg b := by
  rcases h with rfl | rfl <;>
    exact ⟨by decide, by decide,
      isEndMark_of_ne cfg (by decide)⟩

/- An opening brace is a piece. -/
theorem read_opening
    {blanks rest : List UInt8}
    (cfg : ScanSettings)
    (nested : Bool)
    (hBlanks : Blanks blanks)
    (hSource : Supplies st.source (blanks ++ 0x7b :: rest)) :
    ∃ st',
      read cfg nested st = (.ok .opening, st') ∧
        st.Reaches st' rest := by
  rcases read_blanks nested hBlanks
      (beginsToken_brace cfg (.inl rfl)) hSource with
    ⟨st', hRead, hReaches⟩
  exact ⟨st', hRead.trans rfl, hReaches⟩

/- So is a closing brace, inside a procedure. -/
theorem read_closing
    {blanks rest : List UInt8}
    (cfg : ScanSettings)
    (hBlanks : Blanks blanks)
    (hSource : Supplies st.source (blanks ++ 0x7d :: rest)) :
    ∃ st',
      read cfg true st = (.ok .closing, st') ∧
        st.Reaches st' rest := by
  rcases read_blanks true hBlanks
      (beginsToken_brace cfg (.inr rfl)) hSource with
    ⟨st', hRead, hReaches⟩
  exact ⟨st', hRead.trans rfl, hReaches⟩

end Lexeme

end PostScript
