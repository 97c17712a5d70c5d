import PostScript.StringBody.Base85
import PostScript.StringBody.Hexadecimal
import PostScript.StringBody.Parenthesised

/-
  This file shows that no string is longer than the limit it
  was read with, however its text ends.

  Main results:
    * `Parenthesised.size_read`
    * `Hexadecimal.size_read`
    * `Base85.size_of_read`
-/

namespace PostScript

variable {σ : Type}
variable [ByteSource σ]

/- A byte is gathered only where there is room for it. -/
theorem Parenthesised.size_body
    {limit : Nat}
    {text : Bytes}
    (depth : UInt32)
    (src : σ)
    (hSize : text.size ≤ limit) :
    (body limit depth text src).text.size ≤ limit := by
  fun_induction body limit depth text src <;>
    grind [Array.size_push]

/- So no string in parentheses is too long. -/
theorem Parenthesised.size_read
    (limit : Nat)
    (src : σ) :
    (read limit src).text.size ≤ limit :=
  size_body 1 src (Nat.zero_le limit)

/- The same for bytes that are spelled by two digits each. -/
theorem Hexadecimal.size_body
    {limit : Nat}
    {text : Bytes}
    (high : Option Nat)
    (src : σ)
    (hSize : text.size ≤ limit) :
    (body limit high text src).text.size ≤ limit := by
  fun_induction body limit high text src <;>
    grind [Array.size_push]

theorem Hexadecimal.size_read
    (limit : Nat)
    (src : σ) :
    (read limit src).text.size ≤ limit :=
  size_body none src (Nat.zero_le limit)

/- In base 85, the bytes are counted once they are decoded. -/
theorem Base85.size_of_read
    {limit : Nat}
    {src : σ}
    {bytes : Bytes}
    (h : (read limit src).result = .ok bytes) :
    bytes.size ≤ limit := by
  unfold read at h
  split at h
  · cases h
  · split at h
    · cases h
    · split at h
      · cases h
      next hFits =>
        cases h
        exact Nat.le_of_not_lt hFits

end PostScript
