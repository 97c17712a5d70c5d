import PostScript.BinaryToken
import PostScript.Proofs.Run
import PostScript.Proofs.Source.Plan

/-
  This file shows that a binary token tells by its own bytes
  where it ends. What stands behind it makes no difference,
  and what stops short of its end is too short.

  Key definitions include:
    * `BinaryToken.readLead`

  Main results:
    * `BinaryToken.planned_read`
    * `BinaryToken.decode_of_feed`
    * `BinaryToken.decode_delimited`
-/

namespace PostScript

namespace BinaryToken

open Sequence

------------------------------------------------------------
-- Readers
------------------------------------------------------------

section Reading

variable {α β : Type}

/- What is read in two parts is planned in two parts. -/
theorem planned_andThen
    {x : (σ : Type) → [ByteSource σ] → σ → Except Cause α × σ}
    {f :
      α → (σ : Type) → [ByteSource σ] → σ →
        Except Cause β × σ}
    (hx : Planned x)
    (hf : ∀ v, Planned (f v)) :
    Planned (fun σ _ src =>
      andThen (x σ src) (fun v s => f v σ s)) := by
  rcases hx with ⟨p, hp⟩
  refine ⟨p.andThen (fun v => (hf v).choose), ?_⟩
  intro σ _ src
  dsimp only
  rw [Plan.run_andThen, hp]
  unfold andThen
  rcases p.run src with ⟨cause | v, s⟩
  · rfl
  · exact (hf v).choose_spec σ s

/- A value is given without reading. -/
theorem planned_ok
    (v : α) :
    Planned (fun _ _ src => (.ok v, src)) :=
  ⟨.done v, fun _ _ _ => rfl⟩

/- So is a reason to fail. -/
theorem planned_error
    (cause : Cause) :
    Planned (α := α) (fun _ _ src => (.error cause, src)) :=
  ⟨.stop cause, fun _ _ _ => rfl⟩

theorem planned_fixed
    (n : Nat)
    (f : List UInt8 → BinaryToken) :
    Planned (fun _ _ src => fixed n f src) :=
  planned_andThen (planned_takeBytes n)
    (fun bytes => planned_ok (f bytes.toList))

theorem planned_single
    (f : UInt8 → BinaryToken) :
    Planned (fun _ _ src => single f src) :=
  planned_andThen planned_demand (fun b => planned_ok (f b))

theorem planned_stringOf
    (order : ByteOrder)
    (n : Nat) :
    Planned (fun _ _ src => stringOf order n src) := by
  refine planned_andThen (planned_takeBytes n) ?_
  intro length
  refine planned_andThen (planned_takeBytes _) ?_
  exact fun bytes => planned_ok (string bytes)

theorem planned_format :
    Planned (fun _ _ src => format src) := by
  refine planned_andThen planned_demand ?_
  intro b
  cases NumberFormat.ofByte? b with
  | none => exact planned_error .badRepresentation
  | some f => exact planned_ok f

theorem planned_numberOf :
    Planned (fun _ _ src => numberOf src) := by
  refine planned_andThen planned_format ?_
  intro f
  refine planned_andThen (planned_takeBytes f.size) ?_
  exact fun bytes => planned_ok (number f bytes)

theorem planned_numbersOf
    (f : NumberFormat)
    (length : Nat) :
    Planned (fun _ _ src => numbersOf f length src) := by
  unfold numbersOf
  split
  · exact planned_error .ragged
  · refine planned_andThen (planned_takeBytes length) ?_
    exact fun bytes => planned_ok (numbers f bytes)

theorem planned_numberArray
    (n : Nat)
    (unit : NumberFormat → Nat) :
    Planned (fun _ _ src => numberArray n unit src) := by
  refine planned_andThen planned_format ?_
  intro f
  refine planned_andThen (planned_takeBytes n) ?_
  exact fun size => planned_numbersOf f _

/- The header is looked at once its bytes have been read. -/
theorem planned_sequenceOf
    (token : UInt8) :
    Planned (fun _ _ src => sequenceOf token src) := by
  refine planned_andThen planned_demand ?_
  intro count
  refine planned_andThen (planned_takeBytes _) ?_
  intro more
  cases Header.parse (#[token, count] ++ more) with
  | error cause => exact planned_error cause
  | ok h =>
      refine planned_andThen (planned_takeBytes _) ?_
      exact fun payload => planned_ok (sequence h payload)

/- So every token is read by a plan that its lead selects. -/
theorem planned_read
    (lead : UInt8) :
    Planned (fun _ _ src => read lead src) := by
  unfold read
  split
  any_goals exact planned_sequenceOf _
  any_goals exact planned_fixed _ _
  any_goals exact planned_single _
  any_goals exact planned_numberArray _ _
  any_goals exact planned_stringOf _ _
  · exact planned_numberOf
  · exact planned_error .malformed

/- Read a token with the byte that it begins with. -/
def readLead
    {σ : Type}
    [ByteSource σ]
    (src : σ) : Except Cause BinaryToken × σ :=
  andThen (demand src) (fun lead s =>
    if isLead lead then
      read lead s
    else
      (.error .malformed, s))

theorem planned_readLead :
    Planned (fun _ _ src => readLead src) := by
  refine planned_andThen
    (f := fun lead _ _ s =>
      if isLead lead then
        read lead s
      else
        (.error .malformed, s))
    planned_demand ?_
  intro lead
  split
  · exact planned_read lead
  · exact planned_error .malformed

end Reading

------------------------------------------------------------
-- Decoding
------------------------------------------------------------

variable {ε : Type}
variable [Environment ε]

/- Memory is read up to where its offset tells. -/
theorem faithful_offset
    (size : Nat) :
    ByteSource.Faithful (fun (r : Reader) text =>
      r.rest = text ∧ r.offset + text.length = size) where
  atEnd := by
    rintro ⟨rest, offset, lines⟩ ⟨hRest, hOffset⟩
    dsimp only at hRest hOffset
    subst hRest
    exact ⟨_, rfl, rfl, hOffset⟩
  byte := by
    rintro ⟨rest, offset, lines⟩ b more ⟨hRest, hOffset⟩
    dsimp only at hRest hOffset
    subst hRest
    rw [List.length_cons] at hOffset
    refine ⟨_, rfl, ⟨rfl, ?_⟩, rfl, ?_⟩
    · change offset + 1 + more.length = size
      omega
    · change offset + 1 - 1 + (b :: more).length = size
      rw [List.length_cons]
      omega

/- Decoding makes an object of the token that is read. -/
theorem decode_eq
    (env : ε)
    (data : Bytes)
    (t : NameTable) :
    decode env data t =
      match readLead (Reader.ofList data.toList) with
      | (.ok token, r) =>
          (token.object env >>= fun o => pure (o, r.offset)) t
      | (.error cause, _) => .error cause t := by
  unfold decode readLead
  cases data.toList with
  | nil => rfl
  | cons lead rest =>
      have hNext :
          Reader.next (Reader.ofList (lead :: rest)) =
            (.byte lead,
              ⟨rest, 1,
                (LineCount.startingAt 1).advance lead⟩) :=
        rfl
      have hDemand :
          demand (Reader.ofList (lead :: rest)) =
            (.ok lead,
              ⟨rest, 1,
                (LineCount.startingAt 1).advance lead⟩) :=
        rfl
      rw [hNext, hDemand]
      unfold andThen
      dsimp only
      cases isLead lead with
      | false => rfl
      | true =>
          simp only [Bool.not_true, Bool.false_eq_true,
            if_true, if_false]
          rcases read lead _ with ⟨cause | token, r⟩ <;> rfl

/- So it depends on what its plan makes of the data. -/
theorem decode_of_feed
    {p : Plan BinaryToken}
    (hPlan :
      ∀ (r : Reader), readLead r = p.run r)
    (env : ε)
    (data : Bytes)
    (t : NameTable) :
    decode env data t =
      match p.feed data.toList with
      | .ok (token, left) =>
          (token.object env >>= fun o =>
            pure (o, data.size - left.length)) t
      | .error cause => .error cause t := by
  have hSource :
      (Reader.ofList data.toList).rest = data.toList ∧
        (Reader.ofList data.toList).offset +
          data.toList.length = data.size :=
    ⟨rfl, (Nat.zero_add _).trans data.length_toList⟩
  have hRun := p.run_of_feed (faithful_offset data.size) hSource
  rw [decode_eq, hPlan]
  cases hFeed : p.feed data.toList with
  | error cause =>
      rw [hFeed] at hRun
      rcases hRun with ⟨r, hRun⟩
      rw [hRun]
  | ok fed =>
      rcases fed with ⟨token, left⟩
      rw [hFeed] at hRun
      rcases hRun with ⟨r, hRun, -, hOffset⟩
      have hLength : data.size - left.length = r.offset := by
        omega
      rw [hRun]
      dsimp only
      rw [hLength]

/- The object of a token comes with the length of the token. -/
theorem bind_length
    {x : EStateM Cause NameTable Object}
    {n used : Nat}
    {t t' : NameTable}
    {o : Object}
    (h : (x >>= fun o => pure (o, n)) t = .ok (o, used) t') :
    x t = .ok o t' ∧ n = used := by
  cases hRun : x t with
  | error cause s =>
      rw [bind_of_error hRun] at h
      contradiction
  | ok v s =>
      rw [bind_of_ok hRun] at h
      cases h
      exact ⟨rfl, rfl⟩

/-
  A token that is decoded lies within the data. It is decoded
  alike, whatever stands behind it, and if any of its bytes is
  missing, that is a syntax error and leaves the names as they
  are.
-/
theorem decode_delimited
    {env : ε}
    {data : Bytes}
    {t t' : NameTable}
    {o : Object}
    {used : Nat}
    (hDecode : decode env data t = .ok (o, used) t') :
    used ≤ data.size ∧
    (∀ rest : Bytes,
      decode env (data.extract 0 used ++ rest) t =
        .ok (o, used) t') ∧
    (∀ k < used, ∃ cause,
      decode env (data.extract 0 k) t = .error cause t ∧
        cause.kind = .syntaxError) := by
  rcases planned_readLead with ⟨p, hPlan⟩
  have hFed := fun data =>
    decode_of_feed (hPlan Reader) env data t
  rw [hFed] at hDecode
  cases hFeed : p.feed data.toList with
  | error cause =>
      rw [hFeed] at hDecode
      contradiction
  | ok fed =>
      rcases fed with ⟨token, left⟩
      rw [hFeed] at hDecode
      rcases bind_length hDecode with ⟨hObject, hUsed⟩
      rcases p.takes_of_feed hFeed with ⟨taken, hText, hTakes⟩
      have hSize : data.size = taken.length + left.length := by
        rw [← data.length_toList, hText, List.length_append]
      have hLength : taken.length = used := by omega
      have hPart :
          ∀ k ≤ used,
            (data.extract 0 k).toList = taken.take k := by
        intro k hk
        rw [Array.toList_extract, hText,
          List.extract_eq_take_drop, List.drop_zero,
          Nat.sub_zero,
          List.take_append_of_le_length (by omega)]
      have hTaken : (data.extract 0 used).toList = taken := by
        rw [hPart used (Nat.le_refl _),
          List.take_of_length_le (by omega)]
      refine ⟨by omega, ?_, ?_⟩
      · intro rest
        rw [hFed, Array.toList_append, hTaken,
          hTakes.enough rest.toList]
        have hRest :
            (data.extract 0 used ++ rest).size -
              rest.toList.length = used := by
          rw [← Array.length_toList, Array.toList_append, hTaken,
            List.length_append, hLength, Nat.add_sub_cancel]
        dsimp only
        rw [bind_of_ok hObject, hRest]
        rfl
      · intro k hk
        refine ⟨.malformed, ?_, rfl⟩
        rw [hFed, hPart k (by omega), hTakes.short k (by omega)]

/- Two numbers take eight bytes. -/
theorem decode_delimited_numbers :
    (∀ rest : Bytes,
      decode () (#[149, 32, 0, 2, 0, 1, 0, 2] ++ rest)
          NameTable.initial =
        .ok (.array
          [.atom (.integer 1) {}, .atom (.integer 2) {}] {},
          8) NameTable.initial) ∧
    ∃ cause,
      decode () #[149, 32, 0, 2, 0, 1, 0] NameTable.initial =
          .error cause NameTable.initial ∧
        cause.kind = .syntaxError := by
  have hDecode :
      decode () #[149, 32, 0, 2, 0, 1, 0, 2, 7]
          NameTable.initial =
        .ok (.array
          [.atom (.integer 1) {}, .atom (.integer 2) {}] {},
          8) NameTable.initial := by
    rfl
  rcases decode_delimited hDecode with ⟨-, hEnough, hShort⟩
  exact ⟨hEnough, hShort 7 (by decide)⟩

end BinaryToken

end PostScript
