import PostScript.Proofs.Name.Growth
import PostScript.Proofs.Numeric.Numerals
import PostScript.Proofs.Scanner.Blanks
import PostScript.Proofs.StringBody.Base85
import PostScript.Proofs.StringBody.Parenthesised

/-
  This file describes which program texts render which trees.
  A tree is made of integers, names, strings and procedures,
  and every one of them may be written in many ways.

  Key definitions include:
    * `Tree`
    * `Tree.object?`
    * `Tree.depth`
    * `Tree.width`
    * `IsWord`
    * `IsToken`
    * `Renders`
    * `RendersAll`

  Main results:
    * `Tree.object?_grows`
    * `RendersAll.follows`
-/

namespace PostScript

------------------------------------------------------------
-- Trees
------------------------------------------------------------

/-
  A tree of a program. Its names are byte strings, which a
  table of names turns into names.
-/
inductive Tree where
  | integer (v : Int32)
  | name (bytes : Bytes) (executable : Bool)
  | string (bytes : Bytes)
  | procedure (items : List Tree)

namespace Tree

/-
  The object that a tree stands for, with the attributes that
  objects have by default, where a table has all its names.
-/
mutual

def object?
    (t : NameTable) : Tree → Option Object
  | integer v => some (.integer v)
  | name bytes executable =>
      (t.lookup bytes).map (fun n => .name n executable)
  | string bytes => some (.string bytes {})
  | procedure items =>
      (objects? t items).map
        (fun os => .array os { executable := true })

def objects?
    (t : NameTable) : List Tree → Option (List Object)
  | [] => some []
  | x :: xs =>
      match object? t x, objects? t xs with
      | some o, some os => some (o :: os)
      | _, _ => none

end

/- How deep the procedures of a tree nest. -/
mutual

def depth : Tree → Nat
  | procedure items => 1 + deepest items
  | _ => 0

def deepest : List Tree → Nat
  | [] => 0
  | x :: xs => max (depth x) (deepest xs)

end

/- The most elements that a procedure of a tree has. -/
mutual

def width : Tree → Nat
  | procedure items => max items.length (widest items)
  | _ => 0

def widest : List Tree → Nat
  | [] => 0
  | x :: xs => max (width x) (widest xs)

end

/- The objects of trees, one by one. -/
theorem objects?_cons
    {t : NameTable}
    {x : Tree}
    {xs : List Tree}
    {o : Object}
    {os : List Object}
    (hFirst : object? t x = some o)
    (hRest : objects? t xs = some os) :
    objects? t (x :: xs) = some (o :: os) := by
  rw [objects?, hFirst, hRest]

/- What trees stand for when there are more of them. -/
theorem objects?_cons_eq_some
    {t : NameTable}
    {x : Tree}
    {xs : List Tree}
    {os : List Object}
    (h : objects? t (x :: xs) = some os) :
    ∃ o more, os = o :: more ∧ object? t x = some o ∧
      objects? t xs = some more := by
  rw [objects?] at h
  split at h
  next o more hFirst hRest =>
    cases h
    exact ⟨o, more, rfl, hFirst, hRest⟩
  next => contradiction

/- A tree stands for the same while a table grows. -/
mutual

theorem object?_grows
    {t t' : NameTable}
    (hGrows : t.Grows t')
    (x : Tree)
    (o : Object)
    (h : object? t x = some o) :
    object? t' x = some o := by
  cases x with
  | integer v => exact h
  | name bytes executable =>
      rw [object?, Option.map_eq_some_iff] at h
      rcases h with ⟨n, hFound, rfl⟩
      rw [object?, hGrows bytes n hFound]
      rfl
  | string bytes => exact h
  | procedure items =>
      rw [object?, Option.map_eq_some_iff] at h
      rcases h with ⟨os, hItems, rfl⟩
      rw [object?, objects?_grows hGrows items os hItems]
      rfl

theorem objects?_grows
    {t t' : NameTable}
    (hGrows : t.Grows t')
    (xs : List Tree)
    (os : List Object)
    (h : objects? t xs = some os) :
    objects? t' xs = some os := by
  cases xs with
  | nil => exact h
  | cons x xs =>
      rcases objects?_cons_eq_some h with
        ⟨o, more, rfl, hFirst, hRest⟩
      exact objects?_cons (object?_grows hGrows x o hFirst)
        (objects?_grows hGrows xs more hRest)

end

/- There are as many objects as trees. -/
theorem length_objects?
    {t : NameTable}
    {xs : List Tree}
    {os : List Object}
    (h : objects? t xs = some os) :
    os.length = xs.length := by
  induction xs generalizing os with
  | nil =>
      cases h
      rfl
  | cons x xs ih =>
      rcases objects?_cons_eq_some h with
        ⟨o, more, rfl, -, hRest⟩
      rw [List.length_cons, List.length_cons, ih hRest]

end Tree

------------------------------------------------------------
-- Renderings
------------------------------------------------------------

/- Regular bytes of a name that is not too long. -/
structure IsName
    (cfg : ScanSettings)
    (bytes : List UInt8) : Prop where
  regular : ∀ b ∈ bytes, isRegular b = true
  length_le : bytes.length ≤ maxNameLength
  fits : bytes.length ≤ cfg.stringLength

/-
  The bytes of an executable name: at least one, no number,
  and no byte in front that means something else.
-/
structure IsWord
    (cfg : ScanSettings)
    (bytes : List UInt8) : Prop extends IsName cfg bytes where
  nonempty : bytes ≠ []
  notNumber : Number.ofLiteral bytes = .ok none
  notBinary :
    cfg.binaryTokens = true →
      ∀ b, bytes.head? = some b →
        BinaryToken.isLead b = false
  notEnd :
    cfg.controlDEnds = true → bytes.head? ≠ some 0x04

/-
  Regular bytes, at least one, of which the first one does not
  mean something else.
-/
structure IsToken
    (cfg : ScanSettings)
    (bytes : List UInt8) : Prop where
  nonempty : bytes ≠ []
  regular : ∀ b ∈ bytes, isRegular b = true
  notBinary :
    cfg.binaryTokens = true →
      ∀ b, bytes.head? = some b →
        BinaryToken.isLead b = false
  notEnd :
    cfg.controlDEnds = true → bytes.head? ≠ some 0x04

/- An executable name is a token. -/
theorem IsWord.isToken
    {cfg : ScanSettings}
    {bytes : List UInt8}
    (h : IsWord cfg bytes) :
    IsToken cfg bytes :=
  ⟨h.nonempty, h.regular, h.notBinary, h.notEnd⟩

/-
  The texts that render a tree, and those that render trees
  one behind another. There may be blanks in front of every
  tree and behind the last one, and there must be some
  between two trees. `apart` tells that a tree stands in front
  of the text.
-/
mutual

inductive Renders (cfg : ScanSettings) :
    Tree → List UInt8 → Prop where
  | integer
      {v : Int32}
      {text : List UInt8}
      (hNumeral : Numeral text v.toInt)
      (hFits : text.length ≤ cfg.stringLength) :
      Renders cfg (.integer v) text
  | executable
      {bytes : Bytes}
      (hWord : IsWord cfg bytes.toList) :
      Renders cfg (.name bytes true) bytes.toList
  | literal
      {bytes : Bytes}
      (hName : IsName cfg bytes.toList) :
      Renders cfg (.name bytes false)
        (code '/' :: bytes.toList)
  | hexadecimal
      {bytes : Bytes}
      {text : List UInt8}
      (hSpells : Hexadecimal.Spells text bytes.toList)
      (hFits : bytes.size ≤ cfg.stringLength) :
      Renders cfg (.string bytes)
        (code '<' :: (text ++ [code '>']))
  | parenthesised
      {bytes : Bytes}
      {text : List UInt8}
      (hSpells : Parenthesised.Spells text bytes.toList)
      (hOpen : Parenthesised.mostOpen text < 2 ^ 32)
      (hFits : bytes.size ≤ cfg.stringLength) :
      Renders cfg (.string bytes)
        (code '(' :: (text ++ [code ')']))
  | base85
      {bytes : Bytes}
      {text : List UInt8}
      (hLevel : 2 ≤ cfg.languageLevel)
      (hSpells : Base85.Spells text bytes.toList)
      (hFits : bytes.size ≤ cfg.stringLength) :
      Renders cfg (.string bytes)
        (code '<' :: code '~' ::
          (text ++ [code '~', code '>']))
  | procedure
      {items : List Tree}
      {text : List UInt8}
      (hItems : RendersAll cfg false items text) :
      Renders cfg (.procedure items)
        (0x7b :: (text ++ [0x7d]))

inductive RendersAll (cfg : ScanSettings) :
    Bool → List Tree → List UInt8 → Prop where
  | nil
      {apart : Bool}
      {blanks : List UInt8}
      (hBlanks : Blanks blanks) :
      RendersAll cfg apart [] blanks
  | cons
      {apart : Bool}
      {x : Tree}
      {xs : List Tree}
      {blanks text rest : List UInt8}
      (hBlanks : Blanks blanks)
      (hApart : apart = true → blanks ≠ [])
      (hItem : Renders cfg x text)
      (hRest : RendersAll cfg true xs rest) :
      RendersAll cfg apart (x :: xs)
        (blanks ++ (text ++ rest))

end

------------------------------------------------------------
-- Between Trees
------------------------------------------------------------

/- Behind trees stands nothing, or a closing brace. -/
def Closes
    (tail : List UInt8) : Prop :=
  tail = [] ∨ ∃ rest, tail = 0x7d :: rest

/- Blanks may end a token. -/
theorem Blanks.tokenEnd
    {blanks : List UInt8}
    (h : Blanks blanks)
    (hSome : blanks ≠ [])
    (tail : List UInt8) :
    TokenEnd (blanks ++ tail) := by
  cases h with
  | nil => exact absurd rfl hSome
  | white hWhite _ =>
      intro b rest hText
      rw [List.cons_append] at hText
      rw [← (List.cons.inj hText).1]
      exact .inl hWhite
  | comment =>
      intro b rest hText
      rw [List.cons_append] at hText
      exact .inr (.inl (List.cons.inj hText).1.symm)

/- So may what closes trees. -/
theorem Closes.tokenEnd
    {tail : List UInt8}
    (h : Closes tail) :
    TokenEnd tail := by
  rcases h with rfl | ⟨rest, rfl⟩
  · intro b rest hText
    contradiction
  · intro b rest' hText
    exact .inr (.inr (List.cons.inj hText).1.symm)

/- White space does not close trees. -/
theorem Closes.not_white
    {b : UInt8}
    {rest : List UInt8}
    (h : Closes (b :: rest)) :
    isWhitespace b = false := by
  rcases h with hNone | ⟨rest', hBrace⟩
  · contradiction
  · rw [(List.cons.inj hBrace).1]
    decide

variable {cfg : ScanSettings}

/- What stands behind a tree ends its token. -/
theorem RendersAll.tokenEnd
    {xs : List Tree}
    {text tail : List UInt8}
    (h : RendersAll cfg true xs text)
    (hTail : Closes tail) :
    TokenEnd (text ++ tail) := by
  cases h with
  | nil hBlanks =>
      by_cases hNone : text = []
      · rw [hNone]
        exact hTail.tokenEnd
      · exact hBlanks.tokenEnd hNone tail
  | cons hBlanks hApart _ _ =>
      rw [List.append_assoc]
      exact hBlanks.tokenEnd (hApart rfl) _

/-
  Behind a tree the other trees are still to be read, also
  when a byte of white space has been read already.
-/
theorem RendersAll.follows
    {xs : List Tree}
    {text tail left : List UInt8}
    (h : RendersAll cfg true xs text)
    (hTail : Closes tail)
    (hLeft : Follows (text ++ tail) left) :
    ∃ text',
      left = text' ++ tail ∧
        RendersAll cfg false xs text' := by
  rcases hLeft with rfl | ⟨b, hWhite, hText⟩
  · refine ⟨text, rfl, ?_⟩
    cases h with
    | nil hBlanks => exact .nil hBlanks
    | cons hBlanks _ hItem hRest =>
        exact .cons hBlanks (fun h => nomatch h) hItem hRest
  · cases h with
    | nil hBlanks =>
        cases text with
        | nil =>
            rw [List.nil_append] at hText
            subst hText
            rw [hTail.not_white] at hWhite
            contradiction
        | cons c blanks =>
            rcases List.cons.inj hText with ⟨rfl, rfl⟩
            exact ⟨blanks, rfl, .nil (hBlanks.tail hWhite)⟩
    | @cons _ x xs blanks text rest hBlanks hApart hItem
        hRest =>
        cases blanks with
        | nil => exact absurd rfl (hApart rfl)
        | cons c blanks =>
            rcases List.cons.inj hText with ⟨rfl, rfl⟩
            exact ⟨blanks ++ (text ++ rest), rfl,
              .cons (hBlanks.tail hWhite)
                (fun h => nomatch h) hItem hRest⟩

end PostScript
