import PostScript.Proofs.BinaryToken.Extent
import PostScript.Proofs.BinaryToken.Rewriting
import PostScript.Proofs.Scanner.Rendered

/-
  This file shows that a binary token is the same, whether it
  is decoded by itself, scanned as part of a program or, where
  it is a sequence, read as one.

  Key definitions include:
    * `BinaryToken.Agree`

  Main results:
    * `Scanner.scan_of_isLead`
    * `BinaryToken.scan_agrees`
    * `BinaryToken.agree_sequence`
    * `BinaryToken.decode_agrees`
-/

namespace PostScript

open ByteSource

------------------------------------------------------------
-- Leads
------------------------------------------------------------

/- The bytes that begin binary tokens are regular. -/
theorem BinaryToken.isRegular_of_isLead
    {b : UInt8} :
    isLead b = true → isRegular b = true :=
  forall_byte
    (p := fun b => isLead b = true → isRegular b = true)
    (by decide +kernel) b

section Scanning

variable {σ ε : Type}
variable [ByteSource σ]
variable [Environment ε]
variable {cfg : ScanSettings}
variable {lead : UInt8}

namespace Lexeme

/- Where they are known, they begin such tokens. -/
theorem tokenFrom_of_isLead
    (st : ScanState σ ε)
    (hSet : cfg.binaryTokens = true)
    (hLead : BinaryToken.isLead lead = true) :
    tokenFrom cfg lead st = binary lead st := by
  have hRegular := BinaryToken.isRegular_of_isLead hLead
  have hNe :
      ∀ d, isRegular d = false → (lead == d) = false :=
    fun d hOther =>
      beq_false_of_ne (ne_of_regular hRegular hOther)
  unfold tokenFrom
  repeat rw [hNe _ (by decide)]
  rw [hLead, hSet]
  rfl

/- They are found where the text goes on with them. -/
theorem read_of_isLead
    {src s : σ}
    (names : NameTable)
    (env : ε)
    (hSet : cfg.binaryTokens = true)
    (hLead : BinaryToken.isLead lead = true)
    (hNext : next src = (.byte lead, s)) :
    read cfg false ⟨src, names, env, #[]⟩ =
      match binary lead ⟨s, names, env, #[]⟩ with
      | (.ok o, st) => (.ok (.object o), st)
      | (.error cause, st) => (.error cause, st) := by
  have hMark : lead ≠ 0x04 := by
    rintro rfl
    revert hLead
    decide
  have hBegins :=
    beginsObject_regular
      (BinaryToken.isRegular_of_isLead hLead)
      (isEndMark_of_ne cfg hMark)
  have hSkip :
      skipBlanks cfg ⟨src, names, env, #[]⟩ =
        (.ok (some lead), ⟨s, names, env, #[]⟩) := by
    rw [skipBlanks_byte cfg names env #[] hNext]
    simp [hBegins.notComment, hBegins.notEnd,
      hBegins.notWhite]
  have hOpening : (lead == 0x7b) = false :=
    beq_false_of_ne hBegins.notOpening
  have hClosing : (lead == 0x7d) = false :=
    beq_false_of_ne hBegins.notClosing
  unfold read
  rw [hSkip]
  dsimp only
  unfold readFrom
  rw [hOpening, hClosing]
  simp only [Bool.false_eq_true, if_false, Bool.false_and]
  have hToken :=
    tokenFrom_of_isLead ⟨s, names, env, #[]⟩ hSet hLead
  rcases hBinary : binary lead ⟨s, names, env, #[]⟩ with
    ⟨cause | o, st⟩
  all_goals simp only [hToken, hBinary]

end Lexeme

/- A call that finds such a byte reads one token. -/
theorem Scanner.scan_of_isLead
    {src s : σ}
    (names : NameTable)
    (env : ε)
    (hSet : cfg.binaryTokens = true)
    (hLead : BinaryToken.isLead lead = true)
    (hNext : next src = (.byte lead, s)) :
    scan cfg ⟨src, names, env⟩ =
      match Lexeme.binary lead ⟨s, names, env, #[]⟩ with
      | (.ok o, st) =>
          (.ok (some o), ⟨st.source, st.names, st.env⟩)
      | (.error cause, st) =>
          (.error (.inToken cause st.text),
            ⟨st.source, st.names, st.env⟩) := by
  have hObject :
      readObject cfg [] ⟨src, names, env, #[]⟩ =
        match Lexeme.binary lead ⟨s, names, env, #[]⟩ with
        | (.ok o, st) => (.ok (some o), st)
        | (.error cause, st) => (.error cause, st) := by
    rw [readObject_step, List.isEmpty_nil, Bool.not_true,
      Lexeme.read_of_isLead names env hSet hLead hNext]
    rcases Lexeme.binary lead _ with ⟨cause | o, st⟩ <;> rfl
  unfold scan
  dsimp only
  rw [hObject]
  rcases Lexeme.binary lead _ with ⟨cause | o, st⟩ <;> rfl

end Scanning

namespace BinaryToken

variable {ε : Type}
variable [Environment ε]

/- Where no bytes of a token are held, none are reported. -/
theorem inToken_empty
    (cause : Cause) :
    Error.inToken cause #[] = .ofCause cause := by
  unfold Error.inToken
  split <;> rfl

/- Data is its first byte and the rest. -/
theorem toList_of_first
    {data : Bytes}
    {lead : UInt8}
    (hFirst : data[0]? = some lead) :
    ∃ rest, data.toList = lead :: rest := by
  rw [← Array.getElem?_toList] at hFirst
  cases hText : data.toList with
  | nil =>
      rw [hText] at hFirst
      contradiction
  | cons b rest =>
      rw [hText] at hFirst
      cases hFirst
      exact ⟨rest, rfl⟩

/-
  A call on data that begins with such a byte comes to what
  the data is decoded to.
-/
theorem scan_agrees
    {cfg : ScanSettings}
    {data : Bytes}
    {lead : UInt8}
    (env : ε)
    (t : NameTable)
    (hSet : cfg.binaryTokens = true)
    (hFirst : data[0]? = some lead)
    (hLead : isLead lead = true) :
    match decode env data t with
    | .ok (o, used) t' =>
        ∃ r : Scanner.Rest Reader ε,
          Scanner.scan cfg
              ⟨Reader.ofList data.toList, t, env⟩ =
            (.ok (some o), r) ∧
            r.source.offset = used ∧ r.names = t'
    | .error cause t' =>
        ∃ r : Scanner.Rest Reader ε,
          Scanner.scan cfg
              ⟨Reader.ofList data.toList, t, env⟩ =
            (.error (.ofCause cause), r) ∧ r.names = t' := by
  rcases toList_of_first hFirst with ⟨rest, hText⟩
  have hNext :
      next (Reader.ofList (lead :: rest)) =
        (.byte lead,
          ⟨rest, 1, (LineCount.startingAt 1).advance lead⟩) :=
    rfl
  have hDemand :
      demand (Reader.ofList (lead :: rest)) =
        (.ok lead,
          ⟨rest, 1, (LineCount.startingAt 1).advance lead⟩) :=
    rfl
  rw [decode_eq, hText,
    Scanner.scan_of_isLead t env hSet hLead hNext]
  unfold readLead Lexeme.binary
  rw [hDemand]
  unfold andThen
  dsimp only
  rw [if_pos hLead]
  rcases read lead (_ : Reader) with ⟨cause | token, r⟩
  · dsimp only
    rw [inToken_empty]
    exact ⟨_, rfl, rfl⟩
  · dsimp only
    cases hObject : token.object env t with
    | error cause t' =>
        rw [bind_of_error hObject]
        dsimp only
        rw [inToken_empty]
        exact ⟨_, rfl, rfl⟩
    | ok o t' =>
        rw [bind_of_ok hObject]
        exact ⟨_, rfl, rfl, rfl⟩

end BinaryToken

------------------------------------------------------------
-- Counted Bytes
------------------------------------------------------------

namespace Reader

/- Where bytes are missing, the text is malformed. -/
theorem takeAfter_short
    (taken : Bytes)
    {n : Nat}
    {xs : List UInt8}
    (offset : Nat)
    (lines : LineCount)
    (hShort : xs.length < n) :
    ∃ r,
      takeAfter taken n (⟨xs, offset, lines⟩ : Reader) =
        (.error .malformed, r) := by
  induction xs generalizing taken n offset lines with
  | nil =>
      cases n with
      | zero => contradiction
      | succ n => exact ⟨_, rfl⟩
  | cons x xs ih =>
      cases n with
      | zero => contradiction
      | succ n =>
          exact ih (taken.push x) (offset + 1)
            (lines.advance x) (Nat.lt_of_succ_lt_succ hShort)

/- Either all bytes are there and taken, or some are not. -/
theorem takeBytes_cases
    (n : Nat)
    (xs : List UInt8)
    (offset : Nat)
    (lines : LineCount) :
    (n ≤ xs.length ∧ ∃ lines',
      takeBytes n (⟨xs, offset, lines⟩ : Reader) =
        (.ok (xs.take n).toArray,
          ⟨xs.drop n, offset + n, lines'⟩)) ∨
    (xs.length < n ∧ ∃ r,
      takeBytes n (⟨xs, offset, lines⟩ : Reader) =
        (.error .malformed, r)) := by
  rcases Nat.lt_or_ge xs.length n with hShort | hEnough
  · exact .inr ⟨hShort,
      takeAfter_short #[] offset lines hShort⟩
  · refine .inl ⟨hEnough, ?_⟩
    have hTaken :=
      takeBytes_append (xs.take n) (xs.drop n) offset lines
    rw [List.take_append_drop,
      List.length_take_of_le hEnough] at hTaken
    exact hTaken

end Reader

------------------------------------------------------------
-- Headers
------------------------------------------------------------

namespace Header

/- The number of bytes behind the count. -/
def fieldsSize
    (count : UInt8) : Nat :=
  if count = 0 then 6 else 2

/- What the fields are read from. -/
theorem fields_cons
    (format : SequenceFormat)
    (token count : UInt8)
    (rest : List UInt8) :
    fields format (token :: count :: rest).toArray =
      if rest.length < fieldsSize count then
        .error .truncatedHeader
      else if count = 0 then
        .ok ⟨format, format.order.word16 (rest.take 2),
          format.order.word32 ((rest.take 6).drop 2), true⟩
      else
        .ok ⟨format, UInt16.ofNat count.toNat,
          UInt32.ofNat (format.order.value (rest.take 2)),
          false⟩ := by
  have hSlice :
      ∀ n k,
        slice (token :: count :: rest).toArray (n + 2)
          (n + k + 2) = (rest.take (n + k)).drop n := by
    intro n k
    unfold slice
    rw [List.extract_toArray, List.extract_eq_take_drop]
    simp [List.take_drop]
  have hFirst := hSlice 0 2
  have hLast := hSlice 2 4
  have hSecond :
      (token :: count :: rest).toArray[1]? = some count := rfl
  unfold fields fieldsSize
  rw [hSecond, hFirst, hLast]
  dsimp only
  rw [List.size_toArray, List.length_cons, List.length_cons]
  have hLong :
      rest.length + 1 + 1 < extendedSize ↔ rest.length < 6 :=
    by
    unfold extendedSize
    omega
  have hShort :
      rest.length + 1 + 1 < shortSize ↔ rest.length < 2 := by
    unfold shortSize
    omega
  simp only [beq_iff_eq, hLong, hShort]
  by_cases hZero : count = 0
  · simp only [if_pos hZero]
    rfl
  · simp only [if_neg hZero]
    rfl

/- A header is checked for its token, then for the rest. -/
theorem check_cons
    (token count : UInt8)
    (rest : List UInt8) :
    check (token :: count :: rest).toArray =
      match SequenceFormat.ofToken? token with
      | none => .error .notASequence
      | some format =>
          match
            fields format (token :: count :: rest).toArray
          with
          | .error fault => .error fault
          | .ok h =>
              if h.length.toNat < h.size then
                .error .lengthBelowHeader
              else
                .ok h :=
  rfl

/- Whatever is wrong with a header is a syntax error. -/
theorem kind_of_check
    {data : Bytes}
    {fault : RecordFault}
    (h : check data = .error fault) :
    fault.kind = .syntaxError := by
  unfold check fields at h
  grind [RecordFault.kind]

/- A header that ends with its token is too short. -/
theorem check_single
    (token : UInt8) :
    ∃ fault, check #[token] = .error fault := by
  change ∃ fault,
    (match SequenceFormat.ofToken? token with
    | none => .error .notASequence
    | some _ => .error .truncatedHeader :
      Except RecordFault Header) = .error fault
  split <;> exact ⟨_, rfl⟩

/- A header is only looked at as far as its form tells. -/
theorem check_append
    {count : UInt8}
    {head : List UInt8}
    (token : UInt8)
    (tail : List UInt8)
    (hLength : head.length = fieldsSize count) :
    check (token :: count :: (head ++ tail)).toArray =
      check (token :: count :: head).toArray := by
  have hFields :
      ∀ format,
        fields format
            (token :: count :: (head ++ tail)).toArray =
          fields format (token :: count :: head).toArray := by
    intro format
    have hTake :
        ∀ n ≤ fieldsSize count,
          (head ++ tail).take n = head.take n :=
      fun n hn =>
        List.take_append_of_le_length (hLength ▸ hn)
    have hTwo :=
      hTake 2 (by unfold fieldsSize; split <;> decide)
    have hEnough : ¬ head.length < fieldsSize count := by omega
    have hMore :
        ¬ head.length + tail.length < fieldsSize count := by
      omega
    rw [fields_cons, fields_cons, List.length_append, hTwo,
      if_neg hMore, if_neg hEnough]
    split
    next hZero =>
      rw [hTake 6 (by rw [fieldsSize, if_pos hZero])]
    next => rfl
  rw [check_cons, check_cons]
  simp only [hFields]

/- Where it ends too early, something is wrong with it. -/
theorem check_short
    {count : UInt8}
    (token : UInt8)
    {rest : List UInt8}
    (hShort : rest.length < fieldsSize count) :
    ∃ fault,
      check (token :: count :: rest).toArray =
        .error fault := by
  rw [check_cons]
  split
  · exact ⟨_, rfl⟩
  · rw [fields_cons, if_pos hShort]
    exact ⟨_, rfl⟩

/- Its form and length are what they should be. -/
theorem check_ok
    {token count : UInt8}
    {rest : List UInt8}
    {h : Header}
    (hCheck :
      check (token :: count :: rest).toArray = .ok h) :
    h.size = 2 + fieldsSize count ∧
      h.size ≤ h.length.toNat := by
  rw [check_cons] at hCheck
  split at hCheck
  · contradiction
  next format hFormat =>
    split at hCheck
    · contradiction
    next h' hFields =>
      split at hCheck
      · contradiction
      next hLength =>
        cases hCheck
        refine ⟨?_, Nat.le_of_not_lt hLength⟩
        rw [fields_cons] at hFields
        split at hFields
        · contradiction
        · unfold size fieldsSize
          split at hFields
          next hZero =>
            cases hFields
            rw [if_pos hZero]
            rfl
          next hSome =>
            cases hFields
            rw [if_neg hSome]
            rfl

end Header

------------------------------------------------------------
-- Sequences
------------------------------------------------------------

namespace BinaryToken

open Sequence

variable {ε : Type}
variable [Environment ε]

/-
  Two runs that come to the same object and length, or both
  fail with the same error. They leave the same names.
-/
inductive Agree :
    EStateM.Result Cause NameTable (Object × Nat) →
      EStateM.Result Cause NameTable (Object × Nat) →
      Prop where
  | ok
      (v : Object × Nat)
      (t : NameTable) :
      Agree (.ok v t) (.ok v t)
  | error
      {cause cause' : Cause}
      (hKind : cause.kind = cause'.kind)
      (t : NameTable) :
      Agree (.error cause t) (.error cause' t)

/- A run agrees with itself. -/
theorem Agree.refl
    (x : EStateM.Result Cause NameTable (Object × Nat)) :
    Agree x x := by
  cases x with
  | ok v t => exact .ok v t
  | error cause t => exact .error rfl t

section Agreement

variable {x y : EStateM.Result Cause NameTable (Object × Nat)}
variable {t : NameTable}

/- One run succeeds if and only if the other does. -/
theorem Agree.ok_iff
    (h : Agree x y)
    (v : Object × Nat)
    (t : NameTable) :
    x = .ok v t ↔ y = .ok v t := by
  cases h with
  | ok v' t' => exact Iff.rfl
  | error hKind t' => exact ⟨nofun, nofun⟩

/- If one fails, the other fails alike. -/
theorem Agree.of_error
    {cause : Cause}
    (h : Agree x y)
    (hError : y = .error cause t) :
    ∃ cause',
      x = .error cause' t ∧ cause'.kind = cause.kind := by
  cases h with
  | ok v t' => contradiction
  | @error cause' _ hKind t' =>
      cases hError
      exact ⟨cause', rfl, hKind⟩

end Agreement

/- A sequence without a good header is not read. -/
theorem read_of_fault
    {data : Bytes}
    {fault : RecordFault}
    (env : ε)
    (t : NameTable)
    (hCheck : Header.check data = .error fault) :
    Sequence.read env data t =
      .error (.record fault 0 0 data.size) t := by
  unfold Sequence.read Header.parse
  rw [hCheck]
  rfl

/- Otherwise it is read if all of it is there. -/
theorem read_of_check
    {data : Bytes}
    {h : Header}
    (env : ε)
    (t : NameTable)
    (hCheck : Header.check data = .ok h) :
    Sequence.read env data t =
      if data.size < h.length.toNat then
        .error (.record .truncatedSequence 0 0 h.length.toNat)
          t
      else
        (readPayload env h
            (data.extract h.size h.length.toNat) >>=
          fun o => pure (o, h.length.toNat)) t := by
  unfold Sequence.read Header.parse
  rw [hCheck]
  dsimp only
  split <;> rfl

/- Behind its header the payload is the same. -/
theorem agree_payload
    {data : List UInt8}
    {left : List UInt8}
    {lines : LineCount}
    {h : Header}
    (env : ε)
    (t : NameTable)
    (hCheck : Header.check data.toArray = .ok h)
    (hLength : h.size ≤ h.length.toNat)
    (hHeader : h.size ≤ data.length)
    (hLeft : data.drop h.size = left) :
    Agree
      (Sequence.read env data.toArray t)
      (match
        andThen
          (takeBytes h.payloadSize
            (⟨left, h.size, lines⟩ : Reader))
          (fun payload s =>
            (.ok (sequence h payload), s))
      with
      | (.ok token, r) =>
          (token.object env >>= fun o => pure (o, r.offset)) t
      | (.error cause, _) => .error cause t) := by
  have hAll : data.length = h.size + left.length := by
    rw [← hLeft, List.length_drop, Nat.add_sub_of_le hHeader]
  have hPayload : h.size + h.payloadSize = h.length.toNat :=
    Nat.add_sub_of_le hLength
  rw [read_of_check env t hCheck, List.size_toArray]
  rcases Reader.takeBytes_cases h.payloadSize left h.size lines
    with ⟨hEnough, lines', hTaken⟩ | ⟨hShort, r, hTaken⟩
  · have hThere : ¬ data.length < h.length.toNat := by omega
    have hPart :
        data.toArray.extract h.size h.length.toNat =
          (left.take h.payloadSize).toArray := by
      rw [List.extract_toArray, List.extract_eq_take_drop,
        hLeft]
      rfl
    rw [if_neg hThere, hTaken, hPart]
    unfold andThen
    dsimp only
    rw [hPayload]
    exact .refl _
  · have hMissing : data.length < h.length.toNat := by omega
    rw [if_pos hMissing, hTaken]
    unfold andThen
    dsimp only
    refine .error ?_ t
    rfl

/- What is read behind the fields of a header. -/
def behindFields
    (lead count : UInt8)
    (more : Bytes)
    (r : Reader) : Except Cause BinaryToken × Reader :=
  match Header.parse (#[lead, count] ++ more) with
  | .error cause => (.error cause, r)
  | .ok h =>
      andThen (takeBytes h.payloadSize r)
        (fun payload r => (.ok (.sequence h payload), r))

/- A sequence is read field by field and then its payload. -/
theorem sequenceOf_cons
    (lead count : UInt8)
    (rest : List UInt8)
    (lines : LineCount) :
    sequenceOf lead (⟨count :: rest, 1, lines⟩ : Reader) =
      andThen
        (takeBytes (Header.fieldsSize count)
          (⟨rest, 2, lines.advance count⟩ : Reader))
        (behindFields lead count) :=
  rfl

/-
  What is read as a sequence token agrees with what is read
  as a sequence. Either way, the header is looked at first and
  then the payload is taken.
-/
theorem agree_sequenceOf
    {lead : UInt8}
    {rest : List UInt8}
    {lines : LineCount}
    (env : ε)
    (t : NameTable) :
    Agree
      (Sequence.read env (lead :: rest).toArray t)
      (match sequenceOf lead (⟨rest, 1, lines⟩ : Reader) with
      | (.ok token, r) =>
          (token.object env >>= fun o => pure (o, r.offset)) t
      | (.error cause, _) => .error cause t) := by
  -- All that is wrong with a header is alike.
  have hFault :
      ∀ {data : Bytes} {fault : RecordFault} {cause : Cause},
        Header.check data = .error fault →
          cause.kind = .syntaxError →
            Agree (Sequence.read env data t)
              (.error cause t) := by
    intro data fault cause hCheck hKind
    rw [read_of_fault env t hCheck]
    refine .error ?_ t
    exact (Header.kind_of_check hCheck).trans hKind.symm
  cases rest with
  | nil =>
      rcases Header.check_single lead with ⟨fault, hCheck⟩
      exact hFault hCheck rfl
  | cons count rest =>
      rw [sequenceOf_cons]
      rcases Reader.takeBytes_cases (Header.fieldsSize count)
          rest 2 (lines.advance count) with
        ⟨hEnough, lines', hTaken⟩ | ⟨hShort, r, hTaken⟩
      case inr =>
        rcases Header.check_short lead hShort with
          ⟨fault, hCheck⟩
        rw [hTaken]
        exact hFault hCheck rfl
      case inl =>
        have hHead :
            #[lead, count] ++
                (rest.take (Header.fieldsSize count)).toArray =
              (lead :: count ::
                rest.take (Header.fieldsSize count)).toArray :=
          by simp
        have hSame :=
          Header.check_append lead
            (rest.drop (Header.fieldsSize count))
            (List.length_take_of_le hEnough)
        rw [List.take_append_drop] at hSame
        rw [hTaken]
        unfold andThen behindFields Header.parse
        dsimp only
        rw [hHead, ← hSame]
        cases hCheck :
            Header.check (lead :: count :: rest).toArray with
        | error fault =>
            exact hFault hCheck (Header.kind_of_check hCheck)
        | ok h =>
            rcases Header.check_ok hCheck with
              ⟨hSize, hLength⟩
            have hLeft :
                (lead :: count :: rest).drop h.size =
                  rest.drop (Header.fieldsSize count) := by
              rw [hSize, Nat.add_comm]
              rfl
            have hHeader :
                h.size ≤ (lead :: count :: rest).length := by
              rw [hSize, List.length_cons, List.length_cons]
              omega
            rw [← hSize]
            exact agree_payload env t hCheck hLength hHeader
              hLeft

/- The tokens of sequences are the first binary tokens. -/
theorem lead_cases
    {lead : UInt8}
    (hLead : isLead lead = true)
    (hSequence : lead ≤ 131) :
    lead = 128 ∨ lead = 129 ∨ lead = 130 ∨ lead = 131 := by
  revert hLead hSequence
  exact forall_byte
    (p := fun b => isLead b = true → b ≤ 131 →
      b = 128 ∨ b = 129 ∨ b = 130 ∨ b = 131)
    (by decide +kernel) lead

/- So what is decoded agrees with what is read. -/
theorem agree_sequence
    {data : Bytes}
    {lead : UInt8}
    (env : ε)
    (t : NameTable)
    (hFirst : data[0]? = some lead)
    (hLead : isLead lead = true)
    (hSequence : lead ≤ 131) :
    Agree (Sequence.read env data t) (decode env data t) := by
  rcases toList_of_first hFirst with ⟨rest, hText⟩
  have hData : data = (lead :: rest).toArray :=
    Array.toList_inj.mp hText
  have hDemand :
      demand (Reader.ofList (lead :: rest)) =
        (.ok lead,
          ⟨rest, 1, (LineCount.startingAt 1).advance lead⟩) :=
    rfl
  have hRead :
      read lead
          (⟨rest, 1,
            (LineCount.startingAt 1).advance lead⟩ : Reader) =
        sequenceOf lead
          ⟨rest, 1,
            (LineCount.startingAt 1).advance lead⟩ := by
    rcases lead_cases hLead hSequence with
      rfl | rfl | rfl | rfl <;> rfl
  subst hData
  rw [decode_eq, readLead, hDemand]
  unfold andThen
  dsimp only
  rw [if_pos hLead, hRead]
  exact agree_sequenceOf env t

/-
  Data that begins with the first byte of a binary token is
  scanned as an object if and only if it is decoded to that
  object, and then the same bytes are read and the same names
  are left. Otherwise both fail with the same error. If it
  begins with the token of a sequence, it is also read as a
  sequence if and only if it is decoded, to the same object,
  length and names, and otherwise both fail with an error of
  the same kind.
-/
theorem decode_agrees
    {cfg : ScanSettings}
    {data : Bytes}
    {lead : UInt8}
    (env : ε)
    (t : NameTable)
    (hSet : cfg.binaryTokens = true)
    (hFirst : data[0]? = some lead)
    (hLead : isLead lead = true) :
    (∀ o used t',
      (∃ r : Scanner.Rest Reader ε,
        Scanner.scan cfg ⟨Reader.ofList data.toList, t, env⟩ =
          (.ok (some o), r) ∧
          r.source.offset = used ∧ r.names = t') ↔
        decode env data t = .ok (o, used) t') ∧
    (∀ cause t', decode env data t = .error cause t' →
      ∃ r : Scanner.Rest Reader ε,
        Scanner.scan cfg ⟨Reader.ofList data.toList, t, env⟩ =
          (.error (.ofCause cause), r) ∧ r.names = t') ∧
    (lead ≤ 131 →
      (∀ o used t',
        Sequence.read env data t = .ok (o, used) t' ↔
          decode env data t = .ok (o, used) t') ∧
      ∀ cause t', decode env data t = .error cause t' →
        ∃ cause',
          Sequence.read env data t = .error cause' t' ∧
            cause'.kind = cause.kind) := by
  have hScan := scan_agrees env t hSet hFirst hLead
  refine ⟨?_, ?_, ?_⟩
  · intro o used t'
    constructor
    · rintro ⟨r, hResult, rfl, rfl⟩
      cases hDecode : decode env data t with
      | ok v t' =>
          rcases v with ⟨o', used⟩
          rw [hDecode] at hScan
          rcases hScan with ⟨r', hResult', rfl, rfl⟩
          rw [hResult] at hResult'
          cases hResult'
          rfl
      | error cause t' =>
          rw [hDecode] at hScan
          rcases hScan with ⟨r', hResult', -⟩
          rw [hResult] at hResult'
          cases hResult'
    · intro hDecode
      rw [hDecode] at hScan
      exact hScan
  · intro cause t' hDecode
    rw [hDecode] at hScan
    exact hScan
  · intro hSequence
    have hAgree := agree_sequence env t hFirst hLead hSequence
    exact ⟨fun o used t' => hAgree.ok_iff (o, used) t',
      fun cause t' => hAgree.of_error⟩

/- A sequence of one integer is scanned, decoded and read. -/
theorem decode_agrees_integer :
    ∃ (o : Object) (t : NameTable)
        (r : Scanner.Rest Reader Unit),
      decode () #[128, 1, 0, 12, 1, 0, 0, 0, 0, 0, 0, 7]
          NameTable.initial = .ok (o, 12) t ∧
        Scanner.scan {}
            ⟨Reader.ofList
              [128, 1, 0, 12, 1, 0, 0, 0, 0, 0, 0, 7],
              NameTable.initial, ()⟩ = (.ok (some o), r) ∧
        r.source.offset = 12 ∧ r.names = t ∧
        Sequence.read ()
            #[128, 1, 0, 12, 1, 0, 0, 0, 0, 0, 0, 7]
            NameTable.initial = .ok (o, 12) t := by
  have hSet : ({} : ScanSettings).binaryTokens = true := rfl
  have hFirst :
      (#[128, 1, 0, 12, 1, 0, 0, 0, 0, 0, 0, 7] : Bytes)[0]? =
        some 128 := rfl
  rcases decode_agrees () NameTable.initial hSet hFirst rfl with
    ⟨hScan, -, hSequence⟩
  have hLength :
      (match
        decode () #[128, 1, 0, 12, 1, 0, 0, 0, 0, 0, 0, 7]
          NameTable.initial
      with
      | .ok (_, used) _ => used
      | .error _ _ => 0) = 12 := by
    decide +kernel
  cases hDecode :
      decode () #[128, 1, 0, 12, 1, 0, 0, 0, 0, 0, 0, 7]
        NameTable.initial with
  | error cause t =>
      rw [hDecode] at hLength
      contradiction
  | ok v t =>
      rcases v with ⟨o, used⟩
      rw [hDecode] at hLength
      cases hLength
      rcases (hScan o 12 t).mpr hDecode with
        ⟨r, hResult, hOffset, hNames⟩
      exact ⟨o, t, r, rfl, hResult, hOffset, hNames,
        ((hSequence (by decide)).1 o 12 t).mpr hDecode⟩

end BinaryToken

end PostScript
