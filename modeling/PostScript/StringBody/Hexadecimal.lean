import PostScript.Source.Scanned

/-
  This file reads strings of hexadecimal digits. White space
  may stand anywhere, and an odd last digit is followed by a
  zero in thought.

  Key definitions include:
    * `Hexadecimal.body`
    * `Hexadecimal.read`
-/

namespace PostScript.Hexadecimal

variable {σ : Type}
variable [ByteSource σ]

open ByteSource

/- The byte with the given two digits. -/
def pair
    (high low : Nat) : UInt8 :=
  UInt8.ofNat (high * 16 + low)

set_option linter.unusedVariables false in
/-
  Read digits up to the closing bracket. `high` is the first
  digit of a byte whose second digit is still to come.
-/
def body
    (limit : Nat)
    (high : Option Nat)
    (text : Bytes)
    (src : σ) : Scanned σ Unit :=
  match hDemand : demand src with
  | (.error cause, s) => ⟨.error cause, text, s⟩
  | (.ok b, s) =>
      if b == code '>' then
        match high with
        | none => ⟨.ok (), text, s⟩
        | some h =>
            if text.size < limit then
              ⟨.ok (), text.push (pair h 0), s⟩
            else
              ⟨.error .tooLong, text, s⟩
      else if isWhitespace b then
        body limit high text s
      else
        match digitOf 16 b with
        | none => ⟨.error .malformed, text, s⟩
        | some d =>
            match high with
            | none => body limit (some d) text s
            | some h =>
                if text.size < limit then
                  body limit none (text.push (pair h d)) s
                else
                  ⟨.error .tooLong, text, s⟩
termination_by remaining src
decreasing_by
  all_goals exact remaining_of_demand_ok hDemand

/- A string leaves no more bytes than there were. -/
theorem remaining_body
    (limit : Nat)
    (high : Option Nat)
    (text : Bytes)
    (src : σ) :
    remaining (body limit high text src).source ≤
      remaining src := by
  fun_induction body limit high text src <;>
    grind [remaining_demand]

/- Read a string after its opening bracket. -/
def read
    (limit : Nat)
    (src : σ) : Scanned σ Unit :=
  body limit none #[] src

end PostScript.Hexadecimal
