import Mathlib.Algebra.Group.Nat.Defs
import PostScript.Proofs.Source.Supply
import PostScript.StringBody.Parenthesised

/-
  This file describes which texts between parentheses spell
  which bytes, and shows that a text is read as the bytes it
  spells, unless more parentheses are open in it than 32 bits
  count.

  Key definitions include:
    * `Parenthesised.LineBreak`
    * `Parenthesised.OctalCode`
    * `Parenthesised.Spells`
    * `Parenthesised.mostOpen`
    * `Parenthesised.Apart`
    * `Parenthesised.nest`

  Main results:
    * `Parenthesised.Spells.mostOpenFrom_append`
    * `Parenthesised.Spells.mostOpenFrom_le`
    * `Parenthesised.body_spelled`
    * `Parenthesised.read_spelled`
    * `Parenthesised.read_wrapped`
-/

namespace PostScript.Parenthesised

open ByteSource

------------------------------------------------------------
-- Spelling
------------------------------------------------------------

/-
  A line break before a text is a line feed, a carriage return
  or both. A carriage return takes a line feed behind it with
  it.
-/
inductive LineBreak :
    List UInt8 → List UInt8 → Prop where
  | feed
      (rest : List UInt8) :
      LineBreak [0x0a] rest
  | both
      (rest : List UInt8) :
      LineBreak [0x0d, 0x0a] rest
  | alone
      {rest : List UInt8}
      (hRest : rest.head? ≠ some 0x0a) :
      LineBreak [0x0d] rest

/- The number that octal digits spell, behind a number. -/
def octalFrom
    (v : Nat)
    (digits : List UInt8) : Nat :=
  digits.foldl (fun v b => v * 8 + (b.toNat - '0'.toNat)) v

/-
  An octal code before a text has up to three digits. With
  fewer, no other octal digit may stand behind it.
-/
structure OctalCode
    (digits rest : List UInt8) : Prop where
  nonempty : digits ≠ []
  short : digits.length ≤ 3
  octal : ∀ b ∈ digits, isOctal b = true
  ended :
    digits.length < 3 →
      ∀ b, rest.head? = some b → isOctal b = false

/- A byte that spells itself. -/
def isPlain
    (b : UInt8) : Bool :=
  b != code '\\' && b != code '(' && b != code ')' &&
    !isEndOfLine b

/-
  The text between two parentheses and the bytes it spells.
  Parentheses inside are balanced, line breaks of any form
  spell a line feed, and behind a backslash they spell
  nothing.
-/
inductive Spells : List UInt8 → List UInt8 → Prop where
  | nil :
      Spells [] []
  | plain
      {b : UInt8}
      {rest bytes : List UInt8}
      (hPlain : isPlain b = true)
      (hRest : Spells rest bytes) :
      Spells (b :: rest) (b :: bytes)
  | nested
      {inner rest bytes more : List UInt8}
      (hInner : Spells inner bytes)
      (hRest : Spells rest more) :
      Spells (code '(' :: (inner ++ code ')' :: rest))
        (code '(' :: (bytes ++ code ')' :: more))
  | lineBreak
      {e rest bytes : List UInt8}
      (hBreak : LineBreak e rest)
      (hRest : Spells rest bytes) :
      Spells (e ++ rest) (0x0a :: bytes)
  | continued
      {e rest bytes : List UInt8}
      (hBreak : LineBreak e rest)
      (hRest : Spells rest bytes) :
      Spells (code '\\' :: (e ++ rest)) bytes
  | octal
      {digits rest bytes : List UInt8}
      (hCode : OctalCode digits rest)
      (hRest : Spells rest bytes) :
      Spells (code '\\' :: (digits ++ rest))
        (UInt8.ofNat (octalFrom 0 digits) :: bytes)
  | escaped
      {b : UInt8}
      {rest bytes : List UInt8}
      (hOctal : isOctal b = false)
      (hLine : isEndOfLine b = false)
      (hRest : Spells rest bytes) :
      Spells (code '\\' :: b :: rest)
        ((letterEscape? b).getD b :: bytes)

------------------------------------------------------------
-- Open Parentheses
------------------------------------------------------------

/-
  How many parentheses are open where most of them are, in a
  text with `n` of them open before it. A byte behind a
  backslash neither opens nor closes one.
-/
def mostOpenFrom
    (n : Nat) :
    Bool → List UInt8 → Nat
  | _, [] => n
  | true, _ :: rest => mostOpenFrom n false rest
  | false, b :: rest =>
      if b == code '\\' then
        mostOpenFrom n true rest
      else if b == code '(' then
        mostOpenFrom (n + 1) false rest
      else if b == code ')' then
        max n (mostOpenFrom (n - 1) false rest)
      else
        mostOpenFrom n false rest

/-
  How many parentheses are open where most of them are, in a
  text between parentheses, the outermost one among them.
-/
def mostOpen
    (text : List UInt8) : Nat :=
  mostOpenFrom 1 false text

/- No less are open than before the text. -/
theorem le_mostOpenFrom
    (n : Nat)
    (escaped : Bool)
    (text : List UInt8) :
    n ≤ mostOpenFrom n escaped text := by
  induction text generalizing n escaped with
  | nil => cases escaped <;> exact Nat.le_refl n
  | cons b rest ih =>
      cases escaped with
      | true => exact ih n false
      | false =>
          rw [mostOpenFrom]
          split
          · exact ih n true
          · split
            · exact Nat.le_of_succ_le (ih (n + 1) false)
            · split
              · exact Nat.le_max_left _ _
              · exact ih n false

/- An opening parenthesis is one more. -/
theorem mostOpenFrom_open
    (n : Nat)
    (rest : List UInt8) :
    mostOpenFrom n false (code '(' :: rest) =
      mostOpenFrom (n + 1) false rest :=
  rfl

/- Behind a closing one there is one less. -/
theorem mostOpenFrom_close
    (n : Nat)
    (rest : List UInt8) :
    mostOpenFrom (n + 1) false (code ')' :: rest) =
      max (n + 1) (mostOpenFrom n false rest) :=
  rfl

/- A byte that has no meaning for parentheses. -/
def IsQuiet
    (b : UInt8) : Prop :=
  b ≠ code '\\' ∧ b ≠ code '(' ∧ b ≠ code ')'

/- Such bytes change nothing. -/
theorem mostOpenFrom_quiet
    {quiet : List UInt8}
    (hQuiet : ∀ b ∈ quiet, IsQuiet b)
    (n : Nat)
    (rest : List UInt8) :
    mostOpenFrom n false (quiet ++ rest) =
      mostOpenFrom n false rest := by
  induction quiet with
  | nil => rfl
  | cons b quiet ih =>
      rcases List.forall_mem_cons.mp hQuiet with ⟨hb, hRest⟩
      rcases hb with ⟨hBack, hOpen, hClose⟩
      rw [List.cons_append, mostOpenFrom,
        if_neg (by rwa [beq_iff_eq]),
        if_neg (by rwa [beq_iff_eq]),
        if_neg (by rwa [beq_iff_eq])]
      exact ih hRest

/- Nor do they behind a backslash. -/
theorem mostOpenFrom_escape
    {quiet : List UInt8}
    (hQuiet : ∀ b ∈ quiet, IsQuiet b)
    (hSome : quiet ≠ [])
    (n : Nat)
    (rest : List UInt8) :
    mostOpenFrom n false (code '\\' :: (quiet ++ rest)) =
      mostOpenFrom n false rest := by
  cases quiet with
  | nil => exact absurd rfl hSome
  | cons b quiet =>
      exact mostOpenFrom_quiet
        (List.forall_mem_cons.mp hQuiet).2 n rest

/- Plain bytes are quiet, -/
theorem isQuiet_plain
    {b : UInt8}
    (hPlain : isPlain b = true) :
    IsQuiet b := by
  simp only [isPlain, Bool.and_eq_true, bne_iff_ne] at hPlain
  exact ⟨hPlain.1.1.1, hPlain.1.1.2, hPlain.1.2⟩

/- and one of them alone, -/
theorem mostOpenFrom_plain
    {b : UInt8}
    (hPlain : isPlain b = true)
    (n : Nat)
    (rest : List UInt8) :
    mostOpenFrom n false (b :: rest) =
      mostOpenFrom n false rest := by
  have hQuiet : ∀ c ∈ [b], IsQuiet c := by
    simpa using isQuiet_plain hPlain
  exact mostOpenFrom_quiet hQuiet n rest

/- so are line breaks -/
theorem LineBreak.quiet
    {e rest : List UInt8}
    (h : LineBreak e rest) :
    e ≠ [] ∧ ∀ b ∈ e, IsQuiet b := by
  have hFeed : IsQuiet 0x0a := by
    unfold IsQuiet
    decide
  have hReturn : IsQuiet 0x0d := by
    unfold IsQuiet
    decide
  cases h with
  | feed => exact ⟨nofun, by simpa using hFeed⟩
  | both => exact ⟨nofun, by simpa using ⟨hReturn, hFeed⟩⟩
  | alone => exact ⟨nofun, by simpa using hReturn⟩

/- and octal codes. -/
theorem OctalCode.quiet
    {digits rest : List UInt8}
    (h : OctalCode digits rest) :
    ∀ b ∈ digits, IsQuiet b := by
  intro b hb
  have hOctal := h.octal b hb
  refine ⟨?_, ?_, ?_⟩ <;>
    · rintro rfl
      revert hOctal
      decide

/-
  The parentheses of a text between parentheses are balanced,
  so that what stands behind it is read with as many of them
  open as the text is.
-/
theorem Spells.mostOpenFrom_append
    {text bytes : List UInt8}
    (h : Spells text bytes)
    (n : Nat)
    (tail : List UInt8) :
    mostOpenFrom n false (text ++ tail) =
      max (mostOpenFrom n false text)
        (mostOpenFrom n false tail) := by
  induction h generalizing n tail with
  | nil =>
      exact (Nat.max_eq_right
        (le_mostOpenFrom n false tail)).symm
  | plain hPlain _ ih =>
      have hStep := mostOpenFrom_plain hPlain n
      rw [List.cons_append, hStep, hStep, ih]
  | nested _ _ ihInner ihRest =>
      rw [List.cons_append, List.append_assoc,
        List.cons_append, mostOpenFrom_open, mostOpenFrom_open,
        ihInner, ihInner, mostOpenFrom_close,
        mostOpenFrom_close, ihRest, ← Nat.max_assoc,
        ← Nat.max_assoc]
      exact congrArg (max · _) (Nat.max_assoc _ _ _)
  | lineBreak hBreak _ ih =>
      have hStep := mostOpenFrom_quiet hBreak.quiet.2 n
      rw [List.append_assoc, hStep, hStep, ih]
  | continued hBreak _ ih =>
      have hStep := mostOpenFrom_escape hBreak.quiet.2
        hBreak.quiet.1 n
      rw [List.cons_append, List.append_assoc, hStep, hStep, ih]
  | octal hCode _ ih =>
      have hStep := mostOpenFrom_escape hCode.quiet
        hCode.nonempty n
      rw [List.cons_append, List.append_assoc, hStep, hStep, ih]
  | escaped _ _ _ ih =>
      rw [List.cons_append, List.cons_append]
      exact ih n tail

/-
  Most parentheses are open in the text between two of them or
  in what stands behind.
-/
theorem Spells.mostOpenFrom_nested
    {inner bytes : List UInt8}
    (h : Spells inner bytes)
    (n : Nat)
    (rest : List UInt8) :
    mostOpenFrom n false
        (code '(' :: (inner ++ code ')' :: rest)) =
      max (mostOpenFrom (n + 1) false inner)
        (mostOpenFrom n false rest) := by
  have hInside := le_mostOpenFrom (n + 1) false inner
  rw [mostOpenFrom_open, h.mostOpenFrom_append,
    mostOpenFrom_close, ← Nat.max_assoc,
    Nat.max_eq_left hInside]

/- Every parenthesis that is opened is spelled. -/
theorem Spells.mostOpenFrom_le
    {text bytes : List UInt8}
    (h : Spells text bytes)
    (n : Nat) :
    mostOpenFrom n false text ≤ n + bytes.length := by
  induction h generalizing n with
  | nil => exact Nat.le_refl n
  | plain hPlain _ ih =>
      rw [mostOpenFrom_plain hPlain]
      exact Nat.le_succ_of_le (ih n)
  | nested hInner _ ihInner ihRest =>
      have hInside := ihInner (n + 1)
      have hBehind := ihRest n
      rw [hInner.mostOpenFrom_nested]
      simp only [List.length_cons, List.length_append]
      omega
  | lineBreak hBreak _ ih =>
      rw [mostOpenFrom_quiet hBreak.quiet.2]
      exact Nat.le_succ_of_le (ih n)
  | continued hBreak _ ih =>
      rw [mostOpenFrom_escape hBreak.quiet.2 hBreak.quiet.1]
      exact ih n
  | octal hCode _ ih =>
      rw [mostOpenFrom_escape hCode.quiet hCode.nonempty]
      exact Nat.le_succ_of_le (ih n)
  | escaped _ _ _ ih => exact Nat.le_succ_of_le (ih n)

------------------------------------------------------------
-- Ends of Texts
------------------------------------------------------------

/-
  What stands behind a text goes on neither with a line break
  nor with a code that may end the text.
-/
def Apart
    (tail : List UInt8) : Prop :=
  ∀ b, tail.head? = some b →
    b ≠ 0x0a ∧ isOctal b = false

/- Nothing goes on with anything. -/
theorem apart_nil : Apart [] :=
  nofun

/- Whether a text goes on is up to its first byte. -/
theorem apart_cons
    {b : UInt8}
    (hFeed : b ≠ 0x0a)
    (hOctal : isOctal b = false)
    (rest : List UInt8) :
    Apart (b :: rest) := by
  intro c hHead
  cases Option.some.inj hHead
  exact ⟨hFeed, hOctal⟩

/- A closing parenthesis goes on with nothing. -/
theorem apart_close
    (tail : List UInt8) :
    Apart (code ')' :: tail) :=
  apart_cons (by decide) (by decide) tail

/- The head of two texts is that of one of them. -/
theorem head_append
    (rest tail : List UInt8)
    (b : UInt8)
    (h : (rest ++ tail).head? = some b) :
    rest.head? = some b ∨ tail.head? = some b := by
  cases rest with
  | nil => exact .inr h
  | cons c rest => exact .inl h

/- A line break may stand before a text that is apart. -/
theorem LineBreak.append
    {e rest tail : List UInt8}
    (h : LineBreak e rest)
    (hTail : Apart tail) :
    LineBreak e (rest ++ tail) := by
  cases h with
  | feed => exact .feed _
  | both => exact .both _
  | alone hRest =>
      refine .alone ?_
      intro hHead
      rcases head_append rest tail _ hHead with h | h
      · exact hRest h
      · exact (hTail _ h).1 rfl

/- So may an octal code. -/
theorem OctalCode.append
    {digits rest tail : List UInt8}
    (h : OctalCode digits rest)
    (hTail : Apart tail) :
    OctalCode digits (rest ++ tail) where
  nonempty := h.nonempty
  short := h.short
  octal := h.octal
  ended := by
    intro hFew b hHead
    rcases head_append rest tail b hHead with h' | h'
    · exact h.ended hFew b h'
    · exact (hTail b h').2

------------------------------------------------------------
-- Escapes
------------------------------------------------------------

variable {σ : Type}
variable [ByteSource σ]

/- A line feed that is there is skipped. -/
theorem skipLineFeed_feed
    {src : σ}
    {tail : List UInt8}
    (hSource : Supplies src (0x0a :: tail)) :
    ∃ s, skipLineFeed src = (.ok (), s) ∧
      Supplies s tail := by
  rcases hSource.byte with ⟨s, hNext, hRest, -⟩
  refine ⟨s, ?_, hRest⟩
  unfold skipLineFeed
  rw [hNext]
  rfl

/- Nothing else is. -/
theorem skipLineFeed_other
    {src : σ}
    {tail : List UInt8}
    (hTail : tail.head? ≠ some 0x0a)
    (hSource : Supplies src tail) :
    ∃ s, skipLineFeed src = (.ok (), s) ∧
      Supplies s tail := by
  cases tail with
  | nil =>
      rcases hSource.atEnd with ⟨s, hNext, hRest⟩
      refine ⟨s, ?_, hRest⟩
      unfold skipLineFeed
      rw [hNext]
  | cons b rest =>
      have hOther : ¬ (b == 0x0a) = true := by
        rw [beq_iff_eq]
        rintro rfl
        exact hTail rfl
      rcases hSource.byte with ⟨s, hNext, -, hBack⟩
      refine ⟨pushBack b s, ?_, hBack⟩
      unfold skipLineFeed
      rw [hNext]
      dsimp only
      rw [if_neg hOther]

/- Octal digits are read while there are any to be read. -/
theorem octal_digits
    {digits tail : List UInt8}
    {src : σ}
    {n v : Nat}
    (hOctal : ∀ b ∈ digits, isOctal b = true)
    (hCount : digits.length ≤ n)
    (hEnd :
      digits.length < n →
        ∀ b, tail.head? = some b → isOctal b = false)
    (hSource : Supplies src (digits ++ tail)) :
    ∃ s,
      octal n v src = (.ok (octalFrom v digits), s) ∧
        Supplies s tail := by
  induction digits generalizing n v src with
  | nil =>
      cases n with
      | zero => exact ⟨src, rfl, hSource⟩
      | succ n =>
          cases tail with
          | nil =>
              rcases hSource.atEnd with ⟨s, hNext, hRest⟩
              refine ⟨s, ?_, hRest⟩
              unfold octal
              rw [hNext]
              rfl
          | cons b rest =>
              have hOther :=
                hEnd (Nat.succ_pos n) b rfl
              rcases hSource.byte with ⟨s, hNext, -, hBack⟩
              refine ⟨pushBack b s, ?_, hBack⟩
              unfold octal
              rw [hNext]
              dsimp only
              rw [hOther, if_neg Bool.false_ne_true]
              rfl
  | cons b digits ih =>
      cases n with
      | zero => simp at hCount
      | succ n =>
          rw [List.length_cons] at hCount hEnd
          rcases hSource.byte with ⟨s, hNext, hRest, -⟩
          unfold octal
          rw [hNext]
          dsimp only
          rw [if_pos (hOctal b List.mem_cons_self)]
          exact ih
            (fun c hc =>
              hOctal c (List.mem_cons_of_mem _ hc))
            (Nat.le_of_succ_le_succ hCount)
            (fun hFew => hEnd (Nat.succ_lt_succ hFew))
            hRest

/- An octal code spells its number, cut to a byte. -/
theorem escape_octal
    {digits tail : List UInt8}
    {src : σ}
    (hCode : OctalCode digits tail)
    (hSource : Supplies src (digits ++ tail)) :
    ∃ s,
      escape src =
          (.ok (some (UInt8.ofNat (octalFrom 0 digits))),
            s) ∧
        Supplies s tail := by
  rcases hCode with ⟨hSome, hShort, hOctal, hEnd⟩
  cases digits with
  | nil => exact absurd rfl hSome
  | cons b digits =>
      rw [List.length_cons] at hShort hEnd
      rcases hSource.demand with ⟨s, hDemand, hRest⟩
      rcases octal_digits (n := 2)
          (v := b.toNat - '0'.toNat)
          (fun c hc => hOctal c (List.mem_cons_of_mem _ hc))
          (Nat.le_of_succ_le_succ hShort)
          (fun hFew => hEnd (Nat.succ_lt_succ hFew))
          hRest with
        ⟨s', hRead, hTail⟩
      refine ⟨s', ?_, hTail⟩
      unfold escape
      rw [hDemand]
      dsimp only
      rw [if_pos (hOctal b List.mem_cons_self), hRead]
      simp [octalFrom]

/- A line break behind a backslash spells nothing. -/
theorem escape_lineBreak
    {e tail : List UInt8}
    {src : σ}
    (hBreak : LineBreak e tail)
    (hSource : Supplies src (e ++ tail)) :
    ∃ s, escape src = (.ok none, s) ∧ Supplies s tail := by
  cases hBreak with
  | feed =>
      rcases hSource.demand with ⟨s, hDemand, hRest⟩
      refine ⟨s, ?_, hRest⟩
      unfold escape
      rw [hDemand]
      rfl
  | both =>
      rcases hSource.demand with ⟨s, hDemand, hRest⟩
      rcases skipLineFeed_feed hRest with ⟨s', hSkip, hTail⟩
      refine ⟨s', ?_, hTail⟩
      unfold escape
      rw [hDemand]
      dsimp only
      rw [hSkip]
      rfl
  | alone hOther =>
      rcases hSource.demand with ⟨s, hDemand, hRest⟩
      rcases skipLineFeed_other hOther hRest with
        ⟨s', hSkip, hTail⟩
      refine ⟨s', ?_, hTail⟩
      unfold escape
      rw [hDemand]
      dsimp only
      rw [hSkip]
      rfl

/- Any other byte spells what it stands for. -/
theorem escape_other
    {b : UInt8}
    {tail : List UInt8}
    {src : σ}
    (hOctal : isOctal b = false)
    (hLine : isEndOfLine b = false)
    (hSource : Supplies src (b :: tail)) :
    ∃ s,
      escape src = (.ok (some ((letterEscape? b).getD b)), s) ∧
        Supplies s tail := by
  have hFeed : (b == 0x0a) = false := by
    rw [isEndOfLine, Bool.or_eq_false_iff] at hLine
    exact hLine.1
  have hReturn : (b == 0x0d) = false := by
    rw [isEndOfLine, Bool.or_eq_false_iff] at hLine
    exact hLine.2
  rcases hSource.demand with ⟨s, hDemand, hRest⟩
  refine ⟨s, ?_, hRest⟩
  unfold escape
  rw [hDemand]
  simp only [hOctal, hFeed, hReturn, Bool.false_eq_true,
    if_false]

------------------------------------------------------------
-- Items
------------------------------------------------------------

/- What a string goes on with behind an item. -/
def bodyBehind
    (limit : Nat)
    (depth : UInt32)
    (text : Bytes)
    (s : σ) : Item → Scanned σ Unit
  | .ending => ⟨.ok (), text, s⟩
  | .nothing => body limit depth text s
  | .spelled v depth' =>
      if text.size < limit then
        body limit depth' (text.push v) s
      else
        ⟨.error .tooLong, text, s⟩
  | .lineBreak =>
      if text.size < limit then
        match skipLineFeed s with
        | (.error cause, s') =>
            ⟨.error cause, text.push 0x0a, s'⟩
        | (.ok _, s') =>
            body limit depth (text.push 0x0a) s'
      else
        ⟨.error .tooLong, text, s⟩

/- What is read with the first item there is. -/
theorem body_eq
    (limit : Nat)
    (depth : UInt32)
    (text : Bytes)
    (src : σ) :
    body limit depth text src =
      match demand src with
      | (.error cause, s) => ⟨.error cause, text, s⟩
      | (.ok b, s) =>
          match item depth b s with
          | (.error cause, s') => ⟨.error cause, text, s'⟩
          | (.ok x, s') => bodyBehind limit depth text s' x :=
    by
  rw [body]
  split <;> rename_i hDemand <;> rw [hDemand]
  dsimp only
  split <;> rename_i hItem <;> rw [hItem]
  case h_5 =>
    dsimp only
    rw [bodyBehind]
    split
    · split <;> rename_i hSkip <;> rw [hSkip]
    · rfl
  all_goals rfl

/- The same where the item is known. -/
theorem body_item
    {src s s' : σ}
    {b : UInt8}
    {depth : UInt32}
    {x : Item}
    (limit : Nat)
    (text : Bytes)
    (hDemand : demand src = (.ok b, s))
    (hItem : item depth b s = (.ok x, s')) :
    body limit depth text src =
      bodyBehind limit depth text s' x := by
  rw [body_eq, hDemand]
  dsimp only
  rw [hItem]

/- A byte that an item spells is gathered. -/
theorem body_push
    {src s s' : σ}
    {b v : UInt8}
    {limit : Nat}
    {depth depth' : UInt32}
    {text : Bytes}
    (hDemand : demand src = (.ok b, s))
    (hItem : item depth b s = (.ok (.spelled v depth'), s'))
    (hRoom : text.size < limit) :
    body limit depth text src =
      body limit depth' (text.push v) s' := by
  rw [body_item limit text hDemand hItem]
  exact if_pos hRoom

/- A byte without a meaning of its own spells itself. -/
theorem item_plain
    {b : UInt8}
    (depth : UInt32)
    (src : σ)
    (hPlain : isPlain b = true) :
    item depth b src = (.ok (.spelled b depth), src) := by
  simp only [isPlain, isEndOfLine, Bool.and_eq_true,
    bne_iff_ne, Bool.not_eq_true', Bool.or_eq_false_iff,
    beq_eq_false_iff_ne] at hPlain
  rcases hPlain with ⟨⟨⟨hBack, hOpen⟩, hClose⟩, -, hReturn⟩
  simp [item, hBack, hOpen, hClose, hReturn]

/- An escape that spells a byte is an item. -/
theorem item_escape
    {src s : σ}
    {v : UInt8}
    (depth : UInt32)
    (hEscape : escape src = (.ok (some v), s)) :
    item depth (code '\\') src =
      (.ok (.spelled v depth), s) := by
  unfold item
  rw [if_pos (beq_self_eq_true _), hEscape]

/- A parenthesis that closes an inner one spells itself. -/
theorem item_closing
    {depth : UInt32}
    (src : σ)
    (hDepth : depth ≠ 0) :
    item (depth + 1) (code ')') src =
      (.ok (.spelled (code ')') depth), src) := by
  have hItem :
      item (depth + 1) (code ')') src =
        if depth + 1 - 1 = 0 then
          (.ok .ending, src)
        else
          (.ok (.spelled (code ')') (depth + 1 - 1)), src) :=
    rfl
  rw [hItem, UInt32.add_sub_cancel, if_neg hDepth]

/- Below the greatest number one more can be counted. -/
theorem deeper
    {depth : UInt32}
    (h : depth.toNat + 1 < 2 ^ 32) :
    (depth + 1).toNat = depth.toNat + 1 ∧ depth + 1 ≠ 0 := by
  have hDeeper : (depth + 1).toNat = depth.toNat + 1 := by
    rw [UInt32.toNat_add]
    exact Nat.mod_eq_of_lt h
  refine ⟨hDeeper, ?_⟩
  intro hZero
  rw [hZero] at hDeeper
  contradiction

/- An escape that spells nothing is an item, too. -/
theorem item_nothing
    {src s : σ}
    (depth : UInt32)
    (hEscape : escape src = (.ok none, s)) :
    item depth (code '\\') src = (.ok .nothing, s) := by
  unfold item
  rw [if_pos (beq_self_eq_true _), hEscape]

------------------------------------------------------------
-- Strings
------------------------------------------------------------

/- A line break is gathered as a line feed. -/
theorem body_lineBreak
    {e tail : List UInt8}
    {src : σ}
    {limit : Nat}
    {text : Bytes}
    (depth : UInt32)
    (hBreak : LineBreak e tail)
    (hRoom : text.size < limit)
    (hSource : Supplies src (e ++ tail)) :
    ∃ s,
      body limit depth text src =
          body limit depth (text.push 0x0a) s ∧
        Supplies s tail := by
  cases hBreak with
  | feed =>
      rcases hSource.demand with ⟨s, hDemand, hRest⟩
      exact ⟨s, body_push hDemand rfl hRoom, hRest⟩
  | both =>
      rcases hSource.demand with ⟨s, hDemand, hRest⟩
      rcases skipLineFeed_feed hRest with ⟨s', hSkip, hTail⟩
      refine ⟨s', ?_, hTail⟩
      rw [body_item limit text hDemand rfl, bodyBehind,
        if_pos hRoom, hSkip]
  | alone hOther =>
      rcases hSource.demand with ⟨s, hDemand, hRest⟩
      rcases skipLineFeed_other hOther hRest with
        ⟨s', hSkip, hTail⟩
      refine ⟨s', ?_, hTail⟩
      rw [body_item limit text hDemand rfl, bodyBehind,
        if_pos hRoom, hSkip]

/-
  A text is read up to its end, whatever stands apart from it
  there, and the bytes that it spells are gathered.
-/
theorem body_spelled
    {text tail bytes : List UInt8}
    {src : σ}
    {limit : Nat}
    {gathered : Bytes}
    {depth : UInt32}
    (hSpells : Spells text bytes)
    (hDepth : depth ≠ 0)
    (hOpen : mostOpenFrom depth.toNat false text < 2 ^ 32)
    (hTail : Apart tail)
    (hLimit : gathered.size + bytes.length ≤ limit)
    (hSource : Supplies src (text ++ tail)) :
    ∃ s,
      body limit depth gathered src =
          body limit depth (gathered ++ bytes.toArray) s ∧
        Supplies s tail := by
  induction hSpells generalizing src depth gathered tail with
  | nil => exact ⟨src, by simp, hSource⟩
  | plain hPlain _ ih =>
      rcases fits_cons hLimit with ⟨hRoom, hFits⟩
      rw [mostOpenFrom_plain hPlain] at hOpen
      rcases hSource.demand with ⟨s, hDemand, hRest⟩
      rcases ih hDepth hOpen hTail hFits hRest with
        ⟨s', hRead, hEnd⟩
      refine ⟨s', ?_, hEnd⟩
      rw [body_push hDemand (item_plain depth s hPlain) hRoom,
        hRead, push_append]
  | @nested inner rest bytes more hInner _ ihInner ihRest =>
      -- The inner text is read one level deeper, up to its
      -- own closing parenthesis.
      rcases fits_cons hLimit with ⟨hRoom, hFits⟩
      rw [List.length_append, ← Nat.add_assoc] at hFits
      rw [List.cons_append, List.append_assoc,
        List.cons_append] at hSource
      rcases hSource.demand with ⟨s, hDemand, hOpened⟩
      rw [hInner.mostOpenFrom_nested] at hOpen
      rcases Nat.max_lt.mp hOpen with ⟨hOpenInner, hOpenRest⟩
      rcases deeper (Nat.lt_of_le_of_lt
          (le_mostOpenFrom _ _ _) hOpenInner) with
        ⟨hDeeper, hSome⟩
      have hFitsInner :
          (gathered.push (code '(')).size + bytes.length ≤
            limit :=
        Nat.le_trans (Nat.le_add_right _ _) hFits
      rcases ihInner hSome (hDeeper ▸ hOpenInner)
          (apart_close _) hFitsInner hOpened with
        ⟨s₁, hRead, hClosing⟩
      rcases hClosing.demand with ⟨s₂, hDemand₂, hClosed⟩
      have hFitsMore :
          (gathered.push (code '(') ++ bytes.toArray).size +
              (code ')' :: more).length ≤ limit := by
        rw [Array.size_append, List.size_toArray]
        exact hFits
      rcases fits_cons hFitsMore with ⟨hRoom₂, hFitsRest⟩
      rcases ihRest hDepth hOpenRest hTail hFitsRest hClosed with
        ⟨s₃, hRest, hEnd⟩
      refine ⟨s₃, ?_, hEnd⟩
      rw [body_push hDemand rfl hRoom, hRead,
        body_push hDemand₂ (item_closing s₂ hDepth) hRoom₂,
        hRest, push_append, push_append, Array.append_assoc]
      simp
  | @lineBreak e rest bytes hBreak _ ih =>
      rcases fits_cons hLimit with ⟨hRoom, hFits⟩
      rw [List.append_assoc] at hSource
      rw [mostOpenFrom_quiet hBreak.quiet.2] at hOpen
      rcases body_lineBreak depth (hBreak.append hTail) hRoom
          hSource with
        ⟨s, hStep, hRest⟩
      rcases ih hDepth hOpen hTail hFits hRest with
        ⟨s', hRead, hEnd⟩
      refine ⟨s', ?_, hEnd⟩
      rw [hStep, hRead, push_append]
  | continued hBreak _ ih =>
      rw [List.cons_append, List.append_assoc] at hSource
      rw [mostOpenFrom_escape hBreak.quiet.2 hBreak.quiet.1]
        at hOpen
      rcases hSource.demand with ⟨s, hDemand, hCode⟩
      rcases escape_lineBreak (hBreak.append hTail) hCode with
        ⟨s', hEscape, hRest⟩
      rcases ih hDepth hOpen hTail hLimit hRest with
        ⟨s'', hRead, hEnd⟩
      refine ⟨s'', ?_, hEnd⟩
      rw [body_item limit gathered hDemand
        (item_nothing depth hEscape)]
      exact hRead
  | octal hCode _ ih =>
      rcases fits_cons hLimit with ⟨hRoom, hFits⟩
      rw [List.cons_append, List.append_assoc] at hSource
      rw [mostOpenFrom_escape hCode.quiet hCode.nonempty]
        at hOpen
      rcases hSource.demand with ⟨s, hDemand, hDigits⟩
      rcases escape_octal (hCode.append hTail) hDigits with
        ⟨s', hEscape, hRest⟩
      rcases ih hDepth hOpen hTail hFits hRest with
        ⟨s'', hRead, hEnd⟩
      refine ⟨s'', ?_, hEnd⟩
      rw [body_push hDemand (item_escape depth hEscape) hRoom,
        hRead, push_append]
  | escaped hOctal hLine _ ih =>
      rcases fits_cons hLimit with ⟨hRoom, hFits⟩
      rcases hSource.demand with ⟨s, hDemand, hLetter⟩
      rcases escape_other hOctal hLine hLetter with
        ⟨s', hEscape, hRest⟩
      rcases ih hDepth hOpen hTail hFits hRest with
        ⟨s'', hRead, hEnd⟩
      refine ⟨s'', ?_, hEnd⟩
      rw [body_push hDemand (item_escape depth hEscape) hRoom,
        hRead, push_append]

/- A text is read as the bytes that it spells. -/
theorem read_spelled
    {text tail bytes : List UInt8}
    {src : σ}
    {limit : Nat}
    (hSpells : Spells text bytes)
    (hOpen : mostOpen text < 2 ^ 32)
    (hLimit : bytes.length ≤ limit)
    (hSource : Supplies src (text ++ code ')' :: tail)) :
    ∃ s,
      read limit src = ⟨.ok (), bytes.toArray, s⟩ ∧
        Supplies s tail := by
  have hFits :
      (#[] : Bytes).size + bytes.length ≤ limit := by
    simpa using hLimit
  have hOne : (1 : UInt32) ≠ 0 := by decide
  rcases body_spelled hSpells hOne hOpen (apart_close tail)
      hFits hSource with
    ⟨s, hRead, hClosing⟩
  rcases hClosing.demand with ⟨s', hDemand, hTail⟩
  refine ⟨s', ?_, hTail⟩
  unfold read
  rw [hRead, body_item limit _ hDemand rfl,
    Array.empty_append]
  rfl

------------------------------------------------------------
-- Wrapping
------------------------------------------------------------

/- Parentheses that open and close, one inside the other. -/
def nest
    (n : Nat) : List UInt8 :=
  List.replicate n (code '(') ++ List.replicate n (code ')')

/- One more pair stands around the others. -/
theorem nest_succ
    (n : Nat) :
    nest (n + 1) = code '(' :: (nest n ++ [code ')']) := by
  unfold nest
  rw [List.replicate_succ, List.replicate_succ',
    List.cons_append, List.append_assoc]

/- There are twice as many bytes as pairs. -/
theorem length_nest
    (n : Nat) :
    (nest n).length = 2 * n := by
  rw [nest, List.length_append, List.length_replicate,
    List.length_replicate, Nat.two_mul]

/- They spell themselves. -/
theorem spells_nest
    (n : Nat) :
    Spells (nest n) (nest n) := by
  induction n with
  | zero => exact .nil
  | succ n ih =>
      rw [nest_succ]
      exact .nested ih .nil

/- Every opening parenthesis is counted. -/
theorem body_opening
    (n : Nat)
    {tail : List UInt8}
    {src : σ}
    {limit : Nat}
    {gathered : Bytes}
    (depth : UInt32)
    (hLimit : gathered.size + n ≤ limit)
    (hSource :
      Supplies src (List.replicate n (code '(') ++ tail)) :
    ∃ s,
      body limit depth gathered src =
          body limit (depth + UInt32.ofNat n)
            (gathered ++
              (List.replicate n (code '(')).toArray) s ∧
        Supplies s tail := by
  induction n generalizing depth gathered src with
  | zero =>
      exact ⟨src, by simp, hSource⟩
  | succ n ih =>
      rw [List.replicate_succ, List.cons_append] at hSource
      rcases hSource.demand with ⟨s, hDemand, hRest⟩
      have hFits :
          (gathered.push (code '(')).size + n ≤ limit := by
        rw [Array.size_push]
        omega
      rcases ih (depth + 1) hFits hRest with
        ⟨s', hRead, hTail⟩
      have hCount :
          depth + 1 + UInt32.ofNat n =
            depth + UInt32.ofNat (n + 1) := by
        rw [UInt32.ofNat_add, UInt32.add_assoc,
          UInt32.add_comm (UInt32.ofNat n)]
        rfl
      refine ⟨s', ?_, hTail⟩
      rw [body_push hDemand rfl (by omega), hRead, hCount,
        push_append, List.replicate_succ]

/-
  Where so many parentheses are opened that their number
  wraps, the first one that closes ends the string.
-/
theorem read_wrapped
    {n : Nat}
    {tail : List UInt8}
    {src : σ}
    {limit : Nat}
    (hWraps : UInt32.ofNat n = 0)
    (hLimit : n ≤ limit)
    (hSource :
      Supplies src
        (List.replicate n (code '(') ++ code ')' :: tail)) :
    ∃ s,
      read limit src =
          ⟨.ok (), (List.replicate n (code '(')).toArray, s⟩ ∧
        Supplies s tail := by
  have hFits : (#[] : Bytes).size + n ≤ limit := by
    simpa using hLimit
  rcases body_opening n 1 hFits hSource with
    ⟨s, hRead, hClosing⟩
  rcases hClosing.demand with ⟨s', hDemand, hTail⟩
  refine ⟨s', ?_, hTail⟩
  unfold read
  rw [hRead, hWraps, body_item limit _ hDemand rfl,
    Array.empty_append]
  rfl

end PostScript.Parenthesised
