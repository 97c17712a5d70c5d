import PostScript.Source.Scanned

/-
  This file reads strings in parentheses. Parentheses nest, a
  line break in any form reads as one line feed, and a
  backslash begins an escape.

  Key definitions include:
    * `Parenthesised.escape`
    * `Parenthesised.Item`
    * `Parenthesised.item`
    * `Parenthesised.body`
    * `Parenthesised.read`
-/

namespace PostScript.Parenthesised

variable {σ : Type}
variable [ByteSource σ]

open ByteSource

------------------------------------------------------------
-- Escapes
------------------------------------------------------------

/- Skip the line feed that ends a line break. -/
def skipLineFeed
    (src : σ) : Except Cause Unit × σ :=
  match next src with
  | (.byte b, s) =>
      if b == 0x0a then
        (.ok (), s)
      else
        (.ok (), pushBack b s)
  | (.atEnd, s) => (.ok (), s)
  | (.failed m, s) => (.error (.source m), s)

/- Skipping leaves no more bytes than there were. -/
theorem remaining_skipLineFeed
    (src : σ) :
    remaining (skipLineFeed src).2 ≤ remaining src := by
  have h := remaining_next src
  unfold skipLineFeed
  split
  next b s hNext =>
    rw [hNext] at h
    split
    · exact h
    · exact remaining_pushBack hNext
  all_goals simp_all

/- Octal digits. -/
def isOctal
    (b : UInt8) : Bool :=
  isBetween '0' '7' b

/- Read up to `n` more digits of an octal code. -/
def octal : Nat → Nat → σ → Except Cause Nat × σ
  | 0, v, src => (.ok v, src)
  | n + 1, v, src =>
      match next src with
      | (.byte b, s) =>
          if isOctal b then
            octal n (v * 8 + (b.toNat - '0'.toNat)) s
          else
            (.ok v, pushBack b s)
      | (.atEnd, s) => (.ok v, s)
      | (.failed m, s) => (.error (.source m), s)

/- An octal code leaves no more bytes than there were. -/
theorem remaining_octal
    (n v : Nat)
    (src : σ) :
    remaining (octal n v src).2 ≤ remaining src := by
  induction n generalizing v src with
  | zero => exact Nat.le_refl _
  | succ n ih =>
      have h := remaining_next src
      unfold octal
      split
      next b s hNext =>
        rw [hNext] at h
        split
        · exact Nat.le_trans (ih _ _) h
        · exact remaining_pushBack hNext
      all_goals simp_all

/- The bytes that single letters stand for. -/
def letterEscape?
    (b : UInt8) : Option UInt8 :=
  if b == code 'n' then
    some 0x0a
  else if b == code 'r' then
    some 0x0d
  else if b == code 't' then
    some 0x09
  else if b == code 'b' then
    some 0x08
  else if b == code 'f' then
    some 0x0c
  else
    none

/-
  Read an escape after its backslash. Octal codes keep their
  low eight bits, a line break spells nothing, and any other
  byte without a meaning of its own spells itself.
-/
def escape
    (src : σ) : Except Cause (Option UInt8) × σ :=
  match demand src with
  | (.error cause, s) => (.error cause, s)
  | (.ok b, s) =>
      if isOctal b then
        match octal 2 (b.toNat - '0'.toNat) s with
        | (.ok v, s) => (.ok (some (UInt8.ofNat v)), s)
        | (.error cause, s) => (.error cause, s)
      else if b == 0x0a then
        (.ok none, s)
      else if b == 0x0d then
        match skipLineFeed s with
        | (.ok _, s) => (.ok none, s)
        | (.error cause, s) => (.error cause, s)
      else
        (.ok (some ((letterEscape? b).getD b)), s)

/- An escape leaves no more bytes than there were. -/
theorem remaining_escape
    (src : σ) :
    remaining (escape src).2 ≤ remaining src := by
  have h := remaining_demand src
  unfold escape
  split
  next cause s hDemand =>
    rw [hDemand] at h
    exact h
  next b s hDemand =>
    rw [hDemand] at h
    split
    · have hOctal :=
        remaining_octal 2 (b.toNat - '0'.toNat) s
      split <;> rename_i hEq <;> rw [hEq] at hOctal <;>
        exact Nat.le_trans hOctal h
    · split
      · exact h
      · split
        · have hSkip := remaining_skipLineFeed s
          split <;> rename_i hEq <;> rw [hEq] at hSkip <;>
            exact Nat.le_trans hSkip h
        · exact h

------------------------------------------------------------
-- Items
------------------------------------------------------------

/-
  One item of a string: the parenthesis that ends it, an
  escape that spells nothing, a carriage return, or a byte
  with the number of parentheses open after it.
-/
inductive Item where
  | ending
  | nothing
  | lineBreak
  | spelled (b : UInt8) (depth : UInt32)
deriving DecidableEq, Repr

/-
  Read the item that begins with a byte. The parentheses that
  are open, the outermost among them, are counted in 32 bits.
-/
def item
    (depth : UInt32)
    (b : UInt8)
    (src : σ) : Except Cause Item × σ :=
  if b == code '\\' then
    match escape src with
    | (.ok (some v), s) => (.ok (.spelled v depth), s)
    | (.ok none, s) => (.ok .nothing, s)
    | (.error cause, s) => (.error cause, s)
  else if b == code '(' then
    (.ok (.spelled b (depth + 1)), src)
  else if b == code ')' then
    if depth - 1 = 0 then
      (.ok .ending, src)
    else
      (.ok (.spelled b (depth - 1)), src)
  else if b == 0x0d then
    (.ok .lineBreak, src)
  else
    (.ok (.spelled b depth), src)

/- An item leaves no more bytes than there were. -/
theorem remaining_item
    (depth : UInt32)
    (b : UInt8)
    (src : σ) :
    remaining (item depth b src).2 ≤ remaining src := by
  have h := remaining_escape src
  unfold item
  split
  · split <;> rename_i hEq <;> rw [hEq] at h <;> exact h
  · split
    · exact Nat.le_refl _
    · split
      · split <;> exact Nat.le_refl _
      · split <;> exact Nat.le_refl _

------------------------------------------------------------
-- Strings
------------------------------------------------------------

set_option linter.unusedVariables false in
/-
  Read items up to the parenthesis that ends the string. A
  line break is gathered before its line feed is read.
-/
def body
    (limit : Nat)
    (depth : UInt32)
    (text : Bytes)
    (src : σ) : Scanned σ Unit :=
  match hDemand : demand src with
  | (.error cause, s) => ⟨.error cause, text, s⟩
  | (.ok b, s) =>
      match hItem : item depth b s with
      | (.error cause, s') => ⟨.error cause, text, s'⟩
      | (.ok .ending, s') => ⟨.ok (), text, s'⟩
      | (.ok .nothing, s') => body limit depth text s'
      | (.ok (.spelled v depth'), s') =>
          if text.size < limit then
            body limit depth' (text.push v) s'
          else
            ⟨.error .tooLong, text, s'⟩
      | (.ok .lineBreak, s') =>
          if text.size < limit then
            match hSkip : skipLineFeed s' with
            | (.error cause, s'') =>
                ⟨.error cause, text.push 0x0a, s''⟩
            | (.ok _, s'') =>
                body limit depth (text.push 0x0a) s''
          else
            ⟨.error .tooLong, text, s'⟩
termination_by remaining src
decreasing_by
  all_goals
    have hLess := remaining_of_demand_ok hDemand
    have hLeft := remaining_item depth b s
    rw [hItem] at hLeft
    dsimp only at hLeft
  · omega
  · omega
  · have hSkipped := remaining_skipLineFeed s'
    rw [hSkip] at hSkipped
    dsimp only at hSkipped
    omega

/- A string leaves no more bytes than there were. -/
theorem remaining_body
    (limit : Nat)
    (depth : UInt32)
    (text : Bytes)
    (src : σ) :
    remaining (body limit depth text src).source ≤
      remaining src := by
  fun_induction body limit depth text src <;>
    grind [remaining_demand, remaining_item,
      remaining_skipLineFeed]

/- Read a string after its opening parenthesis. -/
def read
    (limit : Nat)
    (src : σ) : Scanned σ Unit :=
  body limit 1 #[] src

end PostScript.Parenthesised
