import PostScript.Proofs.StringBody.Encoding

/-
  This file shows that every encoding of a byte string in base
  85 is read as this byte string, with any white space in it,
  and which texts are never read: those with a byte that means
  nothing, with a `z` inside a group, with a last group of one
  digit or with a group past 32 bits.

  Key definitions include:
    * `Base85.Whole`
    * `Base85.Faulty`

  Main results:
    * `Base85.decodeAfter?_of_faulty`
    * `Base85.read_encoded`
-/

namespace PostScript.Base85

open ByteSource

------------------------------------------------------------
-- Faults
------------------------------------------------------------

/- Whole groups: five digits, or a `z`. -/
inductive Whole : List UInt8 → Prop where
  | nil :
      Whole []
  | zeros
      {rest : List UInt8}
      (hRest : Whole rest) :
      Whole (code 'z' :: rest)
  | full
      {text rest : List UInt8}
      {digits : List Nat}
      (hText : DigitsOf text digits)
      (hLength : text.length = 5)
      (hRest : Whole rest) :
      Whole (text ++ rest)

/-
  What may be wrong with a text: a byte that is neither a
  digit nor `z`, a `z` inside a group, a single digit as the
  last group, and a group that stands for more than 32 bits,
  if need be filled up with the greatest digit.
-/
inductive Faulty : List UInt8 → Prop where
  | stray
      {text : List UInt8}
      {b : UInt8}
      (hMem : b ∈ text)
      (hDigit : digit? b = none)
      (hOther : b ≠ code 'z') :
      Faulty text
  | inside
      {front part rest : List UInt8}
      {digits : List Nat}
      (hFront : Whole front)
      (hPart : DigitsOf part digits)
      (hLower : 1 ≤ part.length)
      (hUpper : part.length ≤ 4) :
      Faulty (front ++ (part ++ code 'z' :: rest))
  | single
      {front part : List UInt8}
      {digits : List Nat}
      (hFront : Whole front)
      (hPart : DigitsOf part digits)
      (hLength : part.length = 1) :
      Faulty (front ++ part)
  | excess
      {front part rest : List UInt8}
      {digits : List Nat}
      (hFront : Whole front)
      (hPart : DigitsOf part digits)
      (hLower : 2 ≤ part.length)
      (hUpper : part.length ≤ 5)
      (hLast : part.length < 5 → rest = [])
      (hValue :
        0xffffffff <
          valueOf
            (digits ++ List.replicate (5 - part.length) 84)) :
      Faulty (front ++ (part ++ rest))

/- Whole groups are decoded to some bytes, or to nothing. -/
theorem decodeAfter?_whole
    {front : List UInt8}
    (out : Bytes)
    (more : List UInt8)
    (h : Whole front) :
    decodeAfter? out .empty (front ++ more) = none ∨
      ∃ out', decodeAfter? out .empty (front ++ more) =
        decodeAfter? out' .empty more := by
  induction h generalizing out with
  | nil => exact .inr ⟨out, rfl⟩
  | @zeros rest _ ih => exact ih (out.appendList [0, 0, 0, 0])
  | full hText hLength _ ih =>
      rw [List.append_assoc,
        decodeAfter?_five out _ hText hLength]
      split
      · exact ih _
      · exact .inl rfl

/- A byte that stands for nothing spoils a text. -/
theorem decodeAfter?_of_stray
    {text : List UInt8}
    {b : UInt8}
    (out : Bytes)
    (g : Group)
    (hMem : b ∈ text)
    (hDigit : digit? b = none)
    (hOther : b ≠ code 'z') :
    decodeAfter? out g text = none := by
  induction text generalizing out g with
  | nil => contradiction
  | cons c rest ih =>
      rw [decodeAfter?]
      rcases List.mem_cons.mp hMem with rfl | hMem
      · rw [hDigit]
        simp [hOther]
      · split
        · split
          · split
            · exact ih _ _ hMem
            · rfl
          · exact ih _ _ hMem
        · split
          · exact ih _ _ hMem
          · rfl

/- A group that is not whole is decoded where the text ends. -/
theorem decodeAfter?_part
    {part : List UInt8}
    {digits : List Nat}
    (out : Bytes)
    (hPart : DigitsOf part digits)
    (hUpper : part.length ≤ 4) :
    decodeAfter? out .empty part =
      decodeAfter? out (digits.foldl Group.push .empty) [] := by
  have hPushed :=
    @decodeAfter?_pushes part digits .empty out [] hPart
      (by change 0 + part.length ≤ 4; omega)
  rwa [List.append_nil] at hPushed

/- A faulty text spells nothing. -/
theorem decodeAfter?_of_faulty
    {text : List UInt8}
    (out : Bytes)
    (h : Faulty text) :
    decodeAfter? out .empty text = none := by
  cases h with
  | stray hMem hDigit hOther =>
      exact decodeAfter?_of_stray out .empty hMem hDigit hOther
  | @inside front part rest digits hFront hPart hLower hUpper =>
      rcases decodeAfter?_whole out _ hFront with
        h | ⟨out', h⟩
      · exact h
      · have hOpen : (digits.length == 0) = false := by
          rw [hPart.length, beq_eq_false_iff_ne]
          omega
        have hNone : digit? (code 'z') = none := by
          decide
        rw [h, decodeAfter?_pushes out' _ hPart
            (by change 0 + part.length ≤ 4; omega),
          Group.foldl_push_empty, decodeAfter?, hNone]
        dsimp only
        rw [hOpen, Bool.and_false, if_neg Bool.false_ne_true]
  | @single front part digits hFront hPart hLength =>
      rcases decodeAfter?_whole out part hFront with
        h | ⟨out', h⟩
      · exact h
      · rw [h, decodeAfter?_part out' hPart (by omega),
          Group.foldl_push_empty, hPart.length, hLength]
        rfl
  | @excess front part rest digits hFront hPart hLower hUpper
      hLast hValue =>
      rcases decodeAfter?_whole out (part ++ rest) hFront with
        h | ⟨out', h⟩
      · exact h
      · rw [← hPart.length] at hValue
        have hNone := Group.bytes?_foldl_push_eq_none hValue
        by_cases hFive : part.length = 5
        · rw [h, decodeAfter?_five out' rest hPart hFive, hNone]
        · rw [hLast (by omega), List.append_nil] at h
          rw [hLast (by omega), List.append_nil, h,
            decodeAfter?_part out' hPart (by omega),
            decodeAfter?, hNone, Group.foldl_push_empty]
          have hMany : digits.length ≠ 0 ∧ digits.length ≠ 1 := by
            rw [hPart.length]
            omega
          dsimp only
          rw [if_neg hMany.1, if_neg hMany.2]
          rfl

------------------------------------------------------------
-- Reading
------------------------------------------------------------

variable {σ : Type}
variable [ByteSource σ]

/- A text with too many visible bytes is not gathered. -/
theorem gather_tooLong
    {text tail : List UInt8}
    {src : σ}
    {limit : Nat}
    (gathered : Bytes)
    (hText : ∀ b ∈ text, b ≠ code '~')
    (hLimit :
      limit < gathered.size + (visible text).length)
    (hRoom : gathered.size ≤ limit)
    (hSource : Supplies src (text ++ tail)) :
    (gather limit gathered src).result = .error .tooLong := by
  induction text generalizing src gathered with
  | nil =>
      simp only [visible, List.filter_nil, List.length_nil]
        at hLimit
      omega
  | cons b text ih =>
      rcases hSource.demand with ⟨s, hDemand, hRest⟩
      have hMore : ∀ c ∈ text, c ≠ code '~' :=
        fun c hc => hText c (List.mem_cons_of_mem _ hc)
      rw [gather_byte limit gathered hDemand
        (hText b List.mem_cons_self)]
      cases hWhite : isWhitespace b with
      | true =>
          rw [visible_cons_white text hWhite] at hLimit
          exact ih gathered hMore hLimit hRoom hRest
      | false =>
          rw [visible_cons text hWhite, List.length_cons]
            at hLimit
          rw [if_neg Bool.false_ne_true]
          split
          next hLess =>
            exact ih _ hMore
              (by rw [Array.size_push]; omega)
              (by rw [Array.size_push]; omega) hRest
          next => rfl

/- What is gathered before a tilde is visible there. -/
theorem gather_visible
    {text tail : List UInt8}
    {src : σ}
    (limit : Nat)
    (gathered : Bytes)
    (hText : ∀ b ∈ text, b ≠ code '~')
    (hSource : Supplies src (text ++ code '~' :: tail))
    (hOk : (gather limit gathered src).result = .ok ()) :
    (gather limit gathered src).text =
      gathered ++ (visible text).toArray := by
  induction text generalizing src gathered with
  | nil =>
      rcases hSource.demand with ⟨s, hDemand, -⟩
      rw [gather_eq, hDemand]
      dsimp only
      rw [if_pos (beq_self_eq_true _)]
      split
      · simp [visible]
      · split <;> simp [visible]
  | cons b text ih =>
      rcases hSource.demand with ⟨s, hDemand, hRest⟩
      have hMore : ∀ c ∈ text, c ≠ code '~' :=
        fun c hc => hText c (List.mem_cons_of_mem _ hc)
      have hByte :=
        gather_byte limit gathered hDemand
          (hText b List.mem_cons_self)
      rw [hByte] at hOk ⊢
      cases hWhite : isWhitespace b with
      | true =>
          rw [hWhite, if_pos rfl] at hOk
          rw [visible_cons_white text hWhite, if_pos rfl]
          exact ih gathered hMore hRest hOk
      | false =>
          rw [hWhite, if_neg Bool.false_ne_true] at hOk
          rw [visible_cons text hWhite,
            if_neg Bool.false_ne_true]
          split at hOk
          next hLess =>
            rw [if_pos hLess, ih _ hMore hRest hOk, push_append]
          next => contradiction

/- A text that spells too many bytes is not read. -/
theorem read_tooLong
    {text tail bytes : List UInt8}
    {src : σ}
    {limit : Nat}
    (hSpells : Spells text bytes)
    (hLimit : limit < bytes.length)
    (hSource :
      Supplies src (text ++ code '~' :: code '>' :: tail)) :
    (read limit src).result = .error .tooLong := by
  unfold read
  by_cases hFits : (visible text).length ≤ textLimit limit
  · have hRoom :
        (#[] : Bytes).size + (visible text).length ≤
          textLimit limit := by
      simpa using hFits
    rcases gather_text hSpells.ne_tilde hRoom hSource with
      ⟨s, hGather, -⟩
    have hDecoded :
        decode? (#[] ++ (visible text).toArray) =
          some bytes.toArray := by
      unfold decode?
      rw [Array.empty_append, decodeAfter?_of_groups #[]
        hSpells, Array.empty_append]
    have hLong : limit < bytes.toArray.size := by
      rwa [List.size_toArray]
    rw [hGather]
    dsimp only
    rw [hDecoded]
    dsimp only
    rw [if_pos hLong]
  · have hLong :=
      gather_tooLong #[] hSpells.ne_tilde
        (by simpa using hFits) (Nat.zero_le _) hSource
    split
    next hGather =>
      rw [hGather] at hLong
      rw [Except.error.inj hLong]
    next hGather =>
      rw [hGather] at hLong
      contradiction

/- A text that spells nothing is not read. -/
theorem read_of_faulty
    {text tail : List UInt8}
    {src : σ}
    (limit : Nat)
    (hText : ∀ b ∈ text, b ≠ code '~')
    (hFaulty : Faulty (visible text))
    (hSource : Supplies src (text ++ code '~' :: tail))
    (bytes : Bytes) :
    (read limit src).result ≠ .ok bytes := by
  unfold read
  split
  next => exact nofun
  next gathered s hGather =>
    have hVisible :=
      gather_visible (textLimit limit) #[] hText hSource
    rw [hGather] at hVisible
    have hGathered :
        gathered = #[] ++ (visible text).toArray :=
      hVisible rfl
    have hNone : decode? gathered = none := by
      rw [hGathered, Array.empty_append]
      exact decodeAfter?_of_faulty #[] hFaulty
    rw [hNone]
    exact nofun

/-
  A byte string has encodings, and every one of them, with any
  white space in it, is read as the byte string: it is stopped
  neither before its end nor behind it, and refused only if the
  byte string itself is too long. A faulty text is not read as
  anything.
-/
theorem read_encoded
    (bytes : List UInt8)
    (limit : Nat) :
    (∃ text, Encodes text bytes) ∧
      (∀ text tail (src : σ),
        Encodes (visible text) bytes →
          Supplies src
            (text ++ code '~' :: code '>' :: tail) →
            (bytes.length ≤ limit →
              ∃ gathered s,
                read limit src =
                    ⟨.ok bytes.toArray, gathered, s⟩ ∧
                  Supplies s tail) ∧
            (limit < bytes.length →
              (read limit src).result = .error .tooLong)) ∧
      (∀ text tail (src : σ),
        (∀ b ∈ text, b ≠ code '~') →
          Faulty (visible text) →
            Supplies src (text ++ code '~' :: tail) →
              ∀ out, (read limit src).result ≠ .ok out) := by
  refine ⟨exists_encodes bytes, ?_, ?_⟩
  · intro text tail src hEncodes hSource
    exact ⟨fun hLimit =>
        read_spelled hEncodes.groups hLimit hSource,
      fun hLimit =>
        read_tooLong hEncodes.groups hLimit hSource⟩
  · intro text tail src hText hFaulty hSource
    exact read_of_faulty limit hText hFaulty hSource

/-
  Five bytes are read in a whole group and a short one, unless
  only four are allowed. A `z` behind a digit is not read.
-/
theorem read_encoded_five :
    Encodes (visible (Bytes.ofText "87cU RDZ").toList)
        (Bytes.ofText "Hello").toList ∧
      (∃ gathered s,
        read 5
            (Reader.ofList
              (Bytes.ofText "87cU RDZ~>x").toList) =
          ⟨.ok (Bytes.ofText "Hello"), gathered, s⟩ ∧
        Supplies s (Bytes.ofText "x").toList) ∧
      (read 4
          (Reader.ofList
            (Bytes.ofText "87cU RDZ~>x").toList)).result =
        .error .tooLong ∧
      (∀ out,
        (read 5
            (Reader.ofList
              (Bytes.ofText "8z~>").toList)).result ≠
          .ok out) := by
  have hText :
      visible (Bytes.ofText "87cU RDZ").toList =
        groupText (Bytes.ofText "Hell").toList ++
          groupText (Bytes.ofText "o").toList := by
    decide
  have hEncodes :
      Encodes (visible (Bytes.ofText "87cU RDZ").toList)
        (Bytes.ofText "Hello").toList := by
    rw [hText]
    exact .full rfl
      (.short (by decide) (by decide))
  have hFaulty :
      Faulty (visible (Bytes.ofText "8z").toList) :=
    @Faulty.inside [] [code '8'] [] [23] .nil rfl (by decide)
      (by decide)
  rcases read_encoded (σ := Reader)
      (Bytes.ofText "Hello").toList 5 with
    ⟨-, hRead, hNever⟩
  rcases read_encoded (σ := Reader)
      (Bytes.ofText "Hello").toList 4 with
    ⟨-, hRefused, -⟩
  refine ⟨hEncodes, ?_, ?_, ?_⟩
  · exact (hRead (Bytes.ofText "87cU RDZ").toList
      (Bytes.ofText "x").toList _ hEncodes
      (Reader.supplies _)).1 (by decide)
  · exact (hRefused (Bytes.ofText "87cU RDZ").toList
      (Bytes.ofText "x").toList _ hEncodes
      (Reader.supplies _)).2 (by decide)
  · exact hNever (Bytes.ofText "8z").toList [code '>'] _
      (by decide +kernel) hFaulty (Reader.supplies _)

end PostScript.Base85
