import PostScript.Proofs.Source.Trail
import PostScript.Proofs.StringBody.Tracking

/-
  This file shows that the strings of a text are decided by
  what their source answers.

  Key definitions include:
    * `gathering`

  Main results:
    * `Hexadecimal.body_local`
    * `Base85.read_local`
    * `Parenthesised.body_local`
-/

namespace PostScript

open ByteSource

variable {σ : Type}
variable [ByteSource σ]

/- A result and the bytes gathered on the way. -/
abbrev gathering
    (α : Type) :
    Pairing (Except Cause α × Bytes) (Scanned · α) :=
  fun _ v s => ⟨v.1, v.2, s⟩

------------------------------------------------------------
-- Hexadecimal Digits
------------------------------------------------------------

namespace Hexadecimal

/- Digits are read one by one, by induction on what is left. -/
theorem body_local
    (limit : Nat)
    (high : Option Nat)
    (text : Bytes)
    (s : σ) :
    LocalAt (gathering Unit)
      (fun _ _ t => body limit high text t) s := by
  induction s using ByteSource.induction_remaining
    generalizing high text with
  | step s ih =>
      refine (demand_local s).after ?_
      rintro (cause | b) u hFirst
      · exact ⟨_, fun h => by rw [body_eq, h],
          .done (.error cause, text) rfl⟩
      · have hLess := remaining_of_demand_ok hFirst
        refine ⟨_, fun h => by rw [body_eq, h], ?_⟩
        refine .ite (fun _ => ?_) (fun _ => ?_)
        · cases high with
          | none => exact .done (.ok (), text) rfl
          | some h =>
              refine .ite (fun _ => ?_) (fun _ => ?_)
              · exact .done (.ok (), text.push (pair h 0)) rfl
              · exact .done (.error .tooLong, text) rfl
        · refine .ite (fun _ => ih u hLess high text)
            (fun _ => ?_)
          cases digitOf 16 b with
          | none => exact .done (.error .malformed, text) rfl
          | some d =>
              cases high with
              | none => exact ih u hLess _ _
              | some h =>
                  refine .ite (fun _ => ih u hLess _ _)
                    (fun _ => ?_)
                  exact .done (.error .tooLong, text) rfl

end Hexadecimal

------------------------------------------------------------
-- Base 85
------------------------------------------------------------

namespace Base85

/- The text is gathered byte by byte. -/
theorem gather_local
    (limit : Nat)
    (text : Bytes)
    (s : σ) :
    LocalAt (gathering Unit)
      (fun _ _ t => gather limit text t) s := by
  induction s using ByteSource.induction_remaining
    generalizing text with
  | step s ih =>
      refine (demand_local s).after ?_
      rintro (cause | b) u hFirst
      · exact ⟨_, fun h => by rw [gather_eq, h],
          .done (.error cause, text) rfl⟩
      · have hLess := remaining_of_demand_ok hFirst
        refine ⟨_, fun h => by rw [gather_eq, h], ?_⟩
        refine .ite (fun _ => ?_) (fun _ => ?_)
        · refine (demand_local u).after ?_
          rintro (cause | e) u' -
          · exact ⟨_, fun h => by rw [h],
              .done (.error cause, text) rfl⟩
          · refine ⟨_, fun h => by rw [h], ?_⟩
            refine .ite (fun _ => ?_) (fun _ => ?_)
            · exact .done (.ok (), text) rfl
            · exact .done (.error .malformed, text) rfl
        · refine .ite (fun _ => ih u hLess text)
            (fun _ => .ite (fun _ => ih u hLess _)
              (fun _ => ?_))
          exact .done (.error .tooLong, text) rfl

/- The string is made of the text that was gathered. -/
theorem read_local
    (limit : Nat)
    (s : σ) :
    LocalAt (gathering Bytes)
      (fun _ _ t => read limit t) s := by
  refine (gather_local (textLimit limit) #[] s).after ?_
  rintro ⟨cause | _, text⟩ u -
  · exact ⟨_, fun h => by rw [read, h],
      .done (.error cause, text) rfl⟩
  · refine ⟨_, fun h => by rw [read, h], ?_⟩
    dsimp only
    cases decode? text with
    | none => exact .done (.error .malformed, text) rfl
    | some bytes =>
        refine .ite (fun _ => ?_) (fun _ => ?_)
        · exact .done (.error .tooLong, text) rfl
        · exact .done (.ok bytes, text) rfl

end Base85

------------------------------------------------------------
-- Parentheses
------------------------------------------------------------

namespace Parenthesised

/- A byte that is no line feed is given back. -/
theorem skipLineFeed_local
    (s : σ) :
    LocalAt (beside _) (fun _ _ t => skipLineFeed t) s := by
  rcases hNext : next s with ⟨b | _ | m, u⟩
  · by_cases hFeed : (b == 0x0a) = true
    · refine .keptLast (.ok ()) hNext (fun h => ?_)
      rw [skipLineFeed, h]
      exact if_pos hFeed
    · refine .returnedLast (.ok ()) hNext (fun h => ?_)
      rw [skipLineFeed, h]
      exact if_neg hFeed
  · exact .keptLast (.ok ()) hNext
      (fun h => by rw [skipLineFeed, h])
  · exact .keptLast (.error (.source m)) hNext
      (fun h => by rw [skipLineFeed, h])

/- So is one that is no octal digit. -/
theorem octal_local
    (n v : Nat)
    (s : σ) :
    LocalAt (beside _) (fun _ _ t => octal n v t) s := by
  induction n generalizing v s with
  | zero => exact .done (.ok v) rfl
  | succ n ih =>
      rcases hNext : next s with ⟨b | _ | m, u⟩
      · by_cases hOctal : isOctal b = true
        · refine .kept hNext (fun h => ?_)
            (ih (v * 8 + (b.toNat - '0'.toNat)) u)
          rw [octal, h]
          exact if_pos hOctal
        · refine .returnedLast (.ok v) hNext (fun h => ?_)
          rw [octal, h]
          exact if_neg hOctal
      · exact .keptLast (.ok v) hNext
          (fun h => by rw [octal, h])
      · exact .keptLast (.error (.source m)) hNext
          (fun h => by rw [octal, h])

/- An escape goes on as its first byte says. -/
theorem escape_local
    (s : σ) :
    LocalAt (beside _) (fun _ _ t => escape t) s := by
  refine (demand_local s).after ?_
  rintro (cause | b) u -
  · exact ⟨_, fun h => by rw [escape, h],
      .done (.error cause) rfl⟩
  · refine ⟨_, fun h => by rw [escape, h], ?_⟩
    refine .ite (fun _ => ?_) (fun _ => ?_)
    · refine (octal_local 2 (b.toNat - '0'.toNat) u).after ?_
      rintro (cause | v) u' -
      · exact ⟨_, fun h => by rw [h], .done (.error cause) rfl⟩
      · exact ⟨_, fun h => by rw [h],
          .done (.ok (some (UInt8.ofNat v))) rfl⟩
    · refine .ite (fun _ => .done (.ok none) rfl) (fun _ => ?_)
      refine .ite (fun _ => ?_) (fun _ => ?_)
      · refine (skipLineFeed_local u).after ?_
        rintro (cause | _) u' -
        · exact ⟨_, fun h => by rw [h],
            .done (.error cause) rfl⟩
        · exact ⟨_, fun h => by rw [h], .done (.ok none) rfl⟩
      · exact .done (.ok (some ((letterEscape? b).getD b))) rfl

/- An item other than an escape asks for nothing. -/
theorem item_local
    (depth : UInt32)
    (b : UInt8)
    (s : σ) :
    LocalAt (beside _) (fun _ _ t => item depth b t) s := by
  unfold item
  refine .ite (fun _ => ?_) (fun _ => ?_)
  · refine (escape_local s).after ?_
    rintro (cause | _ | v) u -
    · exact ⟨_, fun h => by rw [h], .done (.error cause) rfl⟩
    · exact ⟨_, fun h => by rw [h], .done (.ok .nothing) rfl⟩
    · exact ⟨_, fun h => by rw [h],
        .done (.ok (.spelled v depth)) rfl⟩
  · refine .ite
      (fun _ => .done (.ok (.spelled b (depth + 1))) rfl)
      (fun _ => .ite (fun _ => ?_) (fun _ => ?_))
    · refine .ite (fun _ => ?_) (fun _ => ?_)
      · exact .done (.ok .ending) rfl
      · exact .done (.ok (.spelled b (depth - 1))) rfl
    · refine .ite (fun _ => ?_) (fun _ => ?_)
      · exact .done (.ok .lineBreak) rfl
      · exact .done (.ok (.spelled b depth)) rfl

/- Behind an item the string goes on, if it does. -/
theorem bodyBehind_local
    (limit : Nat)
    (depth : UInt32)
    (text : Bytes)
    (s : σ)
    (x : Item)
    (hOn :
      ∀ depth text (u : σ), remaining u ≤ remaining s →
        LocalAt (gathering Unit)
          (fun _ _ t => body limit depth text t) u) :
    LocalAt (gathering Unit)
      (fun _ _ t => bodyBehind limit depth text t x) s := by
  unfold bodyBehind
  cases x with
  | ending => exact .done (.ok (), text) rfl
  | nothing => exact hOn depth text s (Nat.le_refl _)
  | spelled v depth' =>
      refine .ite (fun _ => hOn _ _ s (Nat.le_refl _))
        (fun _ => ?_)
      exact .done (.error .tooLong, text) rfl
  | lineBreak =>
      refine .ite (fun _ => ?_) (fun _ => ?_)
      · refine (skipLineFeed_local s).after ?_
        rintro (cause | _) u hSkip
        · exact ⟨_, fun h => by rw [h],
            .done (.error cause, text.push 0x0a) rfl⟩
        · have hLeft := remaining_skipLineFeed s
          rw [hSkip] at hLeft
          exact ⟨_, fun h => by rw [h], hOn _ _ u hLeft⟩
      · exact .done (.error .tooLong, text) rfl

/- Items are read one by one, by induction on what is left. -/
theorem body_local
    (limit : Nat)
    (depth : UInt32)
    (text : Bytes)
    (s : σ) :
    LocalAt (gathering Unit)
      (fun _ _ t => body limit depth text t) s := by
  induction s using ByteSource.induction_remaining
    generalizing depth text with
  | step s ih =>
      refine (demand_local s).after ?_
      rintro (cause | b) u hFirst
      · exact ⟨_, fun h => by rw [body_eq, h],
          .done (.error cause, text) rfl⟩
      · have hLess := remaining_of_demand_ok hFirst
        refine ⟨_, fun h => by rw [body_eq, h], ?_⟩
        dsimp only
        refine (item_local depth b u).after ?_
        rintro (cause | x) u' hItem
        · exact ⟨_, fun h => by rw [h],
            .done (.error cause, text) rfl⟩
        · have hLeft := remaining_item depth b u
          rw [hItem] at hLeft
          refine ⟨_, fun h => by rw [h],
            bodyBehind_local limit depth text u' x ?_⟩
          intro depth text u'' hLeft'
          refine ih u'' ?_ depth text
          exact Nat.lt_of_le_of_lt
            (Nat.le_trans hLeft' hLeft) hLess

end Parenthesised

end PostScript
