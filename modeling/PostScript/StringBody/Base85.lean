import PostScript.ByteOrder
import PostScript.Source.Scanned

/-
  This file reads strings in base 85, where five digits spell
  four bytes.

  Key definitions include:
    * `Base85.gather`
    * `Base85.Group`
    * `Base85.decode?`
    * `Base85.read`
-/

namespace PostScript.Base85

variable {σ : Type}
variable [ByteSource σ]

open ByteSource

------------------------------------------------------------
-- Text
------------------------------------------------------------

set_option linter.unusedVariables false in
/- Gather the bytes before `~>`, white space left out. -/
def gather
    (limit : Nat)
    (text : Bytes)
    (src : σ) : Scanned σ Unit :=
  match hDemand : demand src with
  | (.error cause, s) => ⟨.error cause, text, s⟩
  | (.ok b, s) =>
      if b == code '~' then
        match demand s with
        | (.error cause, s') => ⟨.error cause, text, s'⟩
        | (.ok e, s') =>
            if e == code '>' then
              ⟨.ok (), text, s'⟩
            else
              ⟨.error .malformed, text, s'⟩
      else if isWhitespace b then
        gather limit text s
      else if text.size < limit then
        gather limit (text.push b) s
      else
        ⟨.error .tooLong, text, s⟩
termination_by remaining src
decreasing_by
  all_goals exact remaining_of_demand_ok hDemand

/- Gathering leaves no more bytes than there were. -/
theorem remaining_gather
    (limit : Nat)
    (text : Bytes)
    (src : σ) :
    remaining (gather limit text src).source ≤
      remaining src := by
  fun_induction gather limit text src <;>
    grind [remaining_demand]

------------------------------------------------------------
-- Digits
------------------------------------------------------------

/- The digits of base 85. -/
def digit?
    (b : UInt8) : Option Nat :=
  if isBetween '!' 'u' b then
    some (b.toNat - '!'.toNat)
  else
    none

/- The digits of a group read so far, and their value. -/
structure Group where
  length : Nat
  value : Nat
deriving DecidableEq, Repr

namespace Group

/- A group without digits. -/
def empty : Group :=
  ⟨0, 0⟩

/- One more digit. -/
def push
    (g : Group)
    (d : Nat) : Group :=
  ⟨g.length + 1, g.value * 85 + d⟩

/- Fill a group up with the greatest digit. -/
def fill
    (g : Group) : Group :=
  (List.range (5 - g.length)).foldl
    (fun g _ => g.push 84) g

/-
  The bytes of a group, one less than it has digits. A value
  past 32 bits spells nothing.
-/
def bytes?
    (g : Group) : Option (List UInt8) :=
  if g.fill.value ≤ 0xffffffff then
    some ((bigEndianBytes 4 g.fill.value).take
      (g.length - 1))
  else
    none

end Group

/-
  Decode digits behind bytes already decoded. Between groups
  `z` spells four zeros, and the last group must not be a
  single digit.
-/
def decodeAfter?
    (out : Bytes)
    (g : Group) : List UInt8 → Option Bytes
  | [] =>
      if g.length = 0 then
        some out
      else if g.length = 1 then
        none
      else
        g.bytes?.map (fun bytes => out.appendList bytes)
  | b :: rest =>
      match digit? b with
      | some d =>
          if g.length = 4 then
            match (g.push d).bytes? with
            | some bytes =>
                decodeAfter? (out.appendList bytes) .empty rest
            | none => none
          else
            decodeAfter? out (g.push d) rest
      | none =>
          if b == code 'z' && g.length == 0 then
            decodeAfter?
              (out.appendList [0, 0, 0, 0]) g rest
          else
            none

/- The bytes that a text in base 85 spells. -/
def decode?
    (text : Bytes) : Option Bytes :=
  decodeAfter? #[] .empty text.toList

------------------------------------------------------------
-- Strings
------------------------------------------------------------

/- The longest text that is gathered for `limit` bytes. -/
def textLimit
    (limit : Nat) : Nat :=
  limit * 5 / 4 + 5

/-
  Read a string after its opening `<~`. The text that was
  gathered is kept beside the string.
-/
def read
    (limit : Nat)
    (src : σ) : Scanned σ Bytes :=
  match gather (textLimit limit) #[] src with
  | ⟨.error cause, text, s⟩ => ⟨.error cause, text, s⟩
  | ⟨.ok _, text, s⟩ =>
      match decode? text with
      | none => ⟨.error .malformed, text, s⟩
      | some bytes =>
          if limit < bytes.size then
            ⟨.error .tooLong, text, s⟩
          else
            ⟨.ok bytes, text, s⟩

end PostScript.Base85
