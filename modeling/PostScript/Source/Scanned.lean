import PostScript.Bytes
import PostScript.Error
import PostScript.Source.Basic

/-
  This file defines how bytes are read from a source for a
  piece of text.

  Key definitions include:
    * `Scanned`
    * `demand`
    * `takeBytes`

  Every reader leaves at most as many bytes as it found; this
  is proven beside each of them.
-/

namespace PostScript

variable {σ α : Type}

/-
  What a piece of text was read as, the bytes gathered on the
  way and the source behind it.
-/
structure Scanned (σ α : Type) where
  result : Except Cause α
  text : Bytes
  source : σ

variable [ByteSource σ]

------------------------------------------------------------
-- Single Bytes
------------------------------------------------------------

/- Read a byte where the text must not end. -/
def demand
    (src : σ) : Except Cause UInt8 × σ :=
  match ByteSource.next src with
  | (.byte b, s) => (.ok b, s)
  | (.atEnd, s) => (.error .malformed, s)
  | (.failed m, s) => (.error (.source m), s)

/- A byte that was demanded is gone. -/
theorem remaining_of_demand_ok
    {src s : σ}
    {b : UInt8}
    (h : demand src = (.ok b, s)) :
    ByteSource.remaining s < ByteSource.remaining src := by
  unfold demand at h
  split at h <;> simp only [Prod.mk.injEq, reduceCtorEq,
    false_and] at h
  next hNext =>
    rw [← h.2]
    exact ByteSource.remaining_byte hNext

/- Demanding a byte leaves no more bytes than there were. -/
theorem remaining_demand
    (src : σ) :
    ByteSource.remaining (demand src).2 ≤
      ByteSource.remaining src := by
  have h := ByteSource.remaining_next src
  unfold demand
  split <;> simp_all

------------------------------------------------------------
-- Counted Bytes
------------------------------------------------------------

/- Read `n` bytes behind those already taken. -/
def takeAfter
    (taken : Bytes) :
    Nat → σ → Except Cause Bytes × σ
  | 0, src => (.ok taken, src)
  | n + 1, src =>
      match demand src with
      | (.ok b, s) => takeAfter (taken.push b) n s
      | (.error cause, s) => (.error cause, s)

/- Read exactly `n` bytes. -/
def takeBytes
    (n : Nat)
    (src : σ) : Except Cause Bytes × σ :=
  takeAfter #[] n src

/- Taking bytes leaves no more than there were. -/
theorem remaining_takeAfter
    (taken : Bytes)
    (n : Nat)
    (src : σ) :
    ByteSource.remaining (takeAfter taken n src).2 ≤
      ByteSource.remaining src := by
  induction n generalizing taken src with
  | zero => exact Nat.le_refl _
  | succ n ih =>
      have h := remaining_demand src
      unfold takeAfter
      split
      next b s hDemand =>
        rw [hDemand] at h
        exact Nat.le_trans (ih _ _) h
      next cause s hDemand =>
        rw [hDemand] at h
        exact h

/- The same for bytes taken from the start. -/
theorem remaining_takeBytes
    (n : Nat)
    (src : σ) :
    ByteSource.remaining (takeBytes n src).2 ≤
      ByteSource.remaining src :=
  remaining_takeAfter #[] n src

end PostScript
