import PostScript.Proofs.StringBody.Parenthesised

/-
  This file shows what becomes of any text at all behind an
  opening parenthesis. Either some parenthesis closes it, and
  it is read as the bytes that stand spelled before that one,
  or none does, and it is not read. Fewer bytes are allowed
  than 32 bits count, and so never more parentheses are open.

  Key definitions include:
    * `Parenthesised.Closed`
    * `Parenthesised.Unclosed`
    * `Parenthesised.Split`
    * `Parenthesised.Counted`

  Main results:
    * `Parenthesised.split`
    * `Parenthesised.read_decides`
-/

namespace PostScript.Parenthesised

open ByteSource

------------------------------------------------------------
-- Closed Texts
------------------------------------------------------------

/-
  The input is a text that spells the bytes, the parenthesis
  that closes it and a rest.
-/
def Closed
    (input bytes rest : List UInt8) : Prop :=
  ∃ text, input = text ++ code ')' :: rest ∧
    Spells text bytes

/-
  A text in which parentheses may be open where it ends, and
  the bytes that it spells.
-/
inductive Unclosed : List UInt8 → List UInt8 → Prop where
  | spelled
      {text bytes : List UInt8}
      (hText : Spells text bytes) :
      Unclosed text bytes
  | opened
      {text bytes rest more : List UInt8}
      (hText : Spells text bytes)
      (hRest : Unclosed rest more) :
      Unclosed (text ++ code '(' :: rest)
        (bytes ++ code '(' :: more)

/- Behind such a text a backslash may be left alone. -/
def Stub
    (tail : List UInt8) : Prop :=
  tail = [] ∨ tail = [code '\\']

/- An input is closed somewhere, or it is not closed. -/
inductive Split : List UInt8 → Prop where
  | closed
      {text bytes : List UInt8}
      (hText : Spells text bytes)
      (rest : List UInt8) :
      Split (text ++ code ')' :: rest)
  | unclosed
      {text bytes tail : List UInt8}
      (hText : Unclosed text bytes)
      (hTail : Stub tail) :
      Split (text ++ tail)

/-
  What may stand before every text that begins an input may
  stand before the input.
-/
theorem Split.prepend
    {input : List UInt8}
    (item spelled : List UInt8)
    (hItem :
      ∀ text bytes tail, input = text ++ tail →
        Spells text bytes →
          Spells (item ++ text) (spelled ++ bytes))
    (hSplit : Split input) :
    Split (item ++ input) := by
  cases hSplit with
  | closed hText rest =>
      rw [← List.append_assoc]
      exact .closed (hItem _ _ _ rfl hText) rest
  | @unclosed _ bytes _ hText hTail =>
      rw [← List.append_assoc]
      refine @Split.unclosed _ (spelled ++ bytes) _ ?_ hTail
      cases hText with
      | spelled hText =>
          exact .spelled (hItem _ _ _ rfl hText)
      | opened hText hRest =>
          rw [← List.append_assoc, ← List.append_assoc]
          exact .opened
            (hItem _ _ _ (List.append_assoc _ _ _) hText)
            hRest

/- A line break before an input is one before its texts. -/
theorem LineBreak.before
    {e text tail : List UInt8}
    (h : LineBreak e (text ++ tail)) :
    LineBreak e text := by
  cases h with
  | feed => exact .feed _
  | both => exact .both _
  | alone hOther =>
      refine .alone ?_
      intro hHead
      cases text with
      | nil => contradiction
      | cons b text => exact hOther hHead

/- So is an octal code. -/
theorem OctalCode.before
    {digits text tail : List UInt8}
    (h : OctalCode digits (text ++ tail)) :
    OctalCode digits text where
  nonempty := h.nonempty
  short := h.short
  octal := h.octal
  ended := by
    intro hFew b hHead
    cases text with
    | nil => contradiction
    | cons c text => exact h.ended hFew b hHead

/- An input with a line break first begins with one. -/
theorem exists_lineBreak
    {b : UInt8}
    (rest : List UInt8)
    (hLine : isEndOfLine b = true) :
    ∃ e more, b :: rest = e ++ more ∧ LineBreak e more ∧
      more.length ≤ rest.length := by
  rw [isEndOfLine, Bool.or_eq_true, beq_iff_eq, beq_iff_eq]
    at hLine
  rcases hLine with rfl | rfl
  · exact ⟨_, rest, rfl, .feed rest, Nat.le_refl _⟩
  · by_cases hHead : rest.head? = some 0x0a
    · rcases List.head?_eq_some_iff.mp hHead with ⟨more, rfl⟩
      exact ⟨_, more, rfl, .both more, Nat.le_succ _⟩
    · exact ⟨_, rest, rfl, .alone hHead, Nat.le_refl _⟩

/- As many octal digits as there are are taken, up to some. -/
theorem exists_octal
    (n : Nat)
    (input : List UInt8) :
    ∃ digits rest, input = digits ++ rest ∧
      digits.length ≤ n ∧
      (∀ b ∈ digits, isOctal b = true) ∧
      (digits.length < n →
        ∀ b, rest.head? = some b → isOctal b = false) := by
  induction n generalizing input with
  | zero => exact ⟨[], input, rfl, Nat.le_refl _, nofun, nofun⟩
  | succ n ih =>
      cases input with
      | nil => exact ⟨[], [], rfl, Nat.zero_le _, nofun, nofun⟩
      | cons b input =>
          cases hOctal : isOctal b with
          | false =>
              refine ⟨[], b :: input, rfl, Nat.zero_le _,
                nofun, ?_⟩
              intro _ c hHead
              cases Option.some.inj hHead
              exact hOctal
          | true =>
              rcases ih input with
                ⟨digits, rest, rfl, hFew, hAll, hEnd⟩
              exact ⟨b :: digits, rest, rfl,
                Nat.succ_le_succ hFew,
                List.forall_mem_cons.mpr ⟨hOctal, hAll⟩,
                fun h => hEnd (Nat.lt_of_succ_lt_succ h)⟩

/- An input with an octal digit first begins with a code. -/
theorem exists_octalCode
    {b : UInt8}
    (rest : List UInt8)
    (hOctal : isOctal b = true) :
    ∃ digits more, b :: rest = digits ++ more ∧
      OctalCode digits more ∧ more.length ≤ rest.length := by
  rcases exists_octal 2 rest with
    ⟨digits, more, rfl, hFew, hAll, hEnd⟩
  refine ⟨b :: digits, more, rfl, ⟨nofun, ?_, ?_, ?_⟩, ?_⟩
  · exact Nat.succ_le_succ hFew
  · exact List.forall_mem_cons.mpr ⟨hOctal, hAll⟩
  · exact fun h => hEnd (Nat.lt_of_succ_lt_succ h)
  · rw [List.length_append]
    exact Nat.le_add_left _ _

/- A line break may stand before an input. -/
theorem Split.lineBreak
    {e rest : List UInt8}
    (hBreak : LineBreak e rest)
    (hRest : Split rest) :
    Split (e ++ rest) := by
  refine hRest.prepend e [0x0a] ?_
  rintro text bytes tail rfl hText
  exact .lineBreak hBreak.before hText

/-
  A text in parentheses may stand before an input, and where
  it is not closed, neither is the input.
-/
theorem Split.parenthesis
    {input : List UInt8}
    (hInput : Split input)
    (hShorter :
      ∀ rest : List UInt8, rest.length ≤ input.length →
        Split rest) :
    Split (code '(' :: input) := by
  cases hInput with
  | unclosed hText hTail =>
      exact .unclosed (.opened .nil hText) hTail
  | @closed inner spelled hInner rest =>
      have hRest : Split rest := by
        apply hShorter
        simp only [List.length_append, List.length_cons]
        omega
      have hNested :=
        hRest.prepend
          (code '(' :: (inner ++ [code ')']))
          (code '(' :: (spelled ++ [code ')']))
          (by
            intro text bytes tail _ hText
            simpa using hInner.nested hText)
      simpa using hNested

/- An escape may stand before an input, or be cut off. -/
theorem split_escape
    {input : List UInt8}
    (hShorter :
      ∀ rest : List UInt8, rest.length < input.length →
        Split rest) :
    Split (code '\\' :: input) := by
  cases input with
  | nil => exact .unclosed (.spelled .nil) (.inr rfl)
  | cons b rest =>
      have hShorter :
          ∀ more : List UInt8, more.length ≤ rest.length →
            Split more :=
        fun more hLess =>
          hShorter more (Nat.lt_succ_of_le hLess)
      cases hOctal : isOctal b with
      | true =>
          rcases exists_octalCode rest hOctal with
            ⟨digits, more, hEq, hCode, hLess⟩
          rw [hEq]
          refine (hShorter more hLess).prepend
            (code '\\' :: digits)
            [UInt8.ofNat (octalFrom 0 digits)] ?_
          rintro text bytes tail rfl hText
          exact .octal hCode.before hText
      | false =>
          cases hLine : isEndOfLine b with
          | true =>
              rcases exists_lineBreak rest hLine with
                ⟨e, more, hEq, hBreak, hLess⟩
              rw [hEq]
              refine (hShorter more hLess).prepend
                (code '\\' :: e) [] ?_
              rintro text bytes tail rfl hText
              exact .continued hBreak.before hText
          | false =>
              refine (hShorter rest (Nat.le_refl _)).prepend
                [code '\\', b] [(letterEscape? b).getD b] ?_
              rintro text bytes tail rfl hText
              exact .escaped hOctal hLine hText

/-
  Every input is closed somewhere or not closed. The induction
  is on a bound of its length, since an item takes more than
  its first byte.
-/
theorem split_of_length
    (n : Nat)
    (input : List UInt8)
    (hLength : input.length ≤ n) :
    Split input := by
  induction n generalizing input with
  | zero =>
      rw [List.length_eq_zero_iff.mp (Nat.le_zero.mp hLength)]
      exact .unclosed (.spelled .nil) (.inl rfl)
  | succ n ih =>
      cases input with
      | nil => exact .unclosed (.spelled .nil) (.inl rfl)
      | cons b rest =>
          have hShorter :
              ∀ more : List UInt8,
                more.length ≤ rest.length → Split more :=
            fun more hLess =>
              ih more
                (Nat.le_trans hLess
                  (Nat.le_of_succ_le_succ hLength))
          have hRest := hShorter rest (Nat.le_refl _)
          by_cases hBack : b = code '\\'
          · subst hBack
            exact split_escape fun more hLess =>
              hShorter more (Nat.le_of_lt hLess)
          by_cases hClose : b = code ')'
          · subst hClose
            exact .closed .nil rest
          by_cases hOpen : b = code '('
          · subst hOpen
            exact hRest.parenthesis hShorter
          cases hLine : isEndOfLine b with
          | true =>
              rcases exists_lineBreak rest hLine with
                ⟨e, more, hEq, hBreak, hLess⟩
              rw [hEq]
              exact (hShorter more hLess).lineBreak hBreak
          | false =>
              have hPlain : isPlain b = true := by
                simp [isPlain, hBack, hOpen, hClose, hLine]
              refine hRest.prepend [b] [b] ?_
              intro text bytes tail _ hText
              exact .plain hPlain hText

/- Every input is closed somewhere or not closed. -/
theorem split
    (input : List UInt8) :
    Split input :=
  split_of_length input.length input (Nat.le_refl _)

------------------------------------------------------------
-- Reading
------------------------------------------------------------

variable {σ : Type}
variable [ByteSource σ]

/- A byte that does not fit ends a string. -/
theorem body_full
    {src s s' : σ}
    {b v : UInt8}
    {limit : Nat}
    {depth depth' : UInt32}
    {gathered : Bytes}
    (hDemand : demand src = (.ok b, s))
    (hItem : item depth b s = (.ok (.spelled v depth'), s'))
    (hFull : ¬ gathered.size < limit) :
    (body limit depth gathered src).result =
      .error .tooLong := by
  rw [body_item limit gathered hDemand hItem, bodyBehind,
    if_neg hFull]

/- A line break that does not fit ends it, too. -/
theorem body_lineBreak_full
    {e tail : List UInt8}
    {src : σ}
    {limit : Nat}
    {gathered : Bytes}
    (depth : UInt32)
    (hBreak : LineBreak e tail)
    (hFull : ¬ gathered.size < limit)
    (hSource : Supplies src (e ++ tail)) :
    (body limit depth gathered src).result =
      .error .tooLong := by
  cases hBreak with
  | feed =>
      rcases hSource.demand with ⟨s, hDemand, -⟩
      exact body_full hDemand rfl hFull
  | both =>
      rcases hSource.demand with ⟨s, hDemand, -⟩
      rw [body_item limit gathered hDemand rfl, bodyBehind,
        if_neg hFull]
  | alone =>
      rcases hSource.demand with ⟨s, hDemand, -⟩
      rw [body_item limit gathered hDemand rfl, bodyBehind,
        if_neg hFull]

/- If all bytes do not fit, those behind the first do not. -/
theorem excess_cons
    {gathered : Bytes}
    {b : UInt8}
    {bytes : List UInt8}
    {limit : Nat}
    (hRoom : gathered.size < limit)
    (hLimit : limit < gathered.size + (b :: bytes).length) :
    (gathered.push b).size ≤ limit ∧
      limit < (gathered.push b).size + bytes.length := by
  rw [List.length_cons] at hLimit
  rw [Array.size_push]
  omega

/-
  A string with too many bytes is given up at the first of them
  if it is given up behind it.
-/
theorem body_excess
    {src s s' : σ}
    {b v : UInt8}
    {bytes : List UInt8}
    {limit : Nat}
    {depth depth' : UInt32}
    {gathered : Bytes}
    (hDemand : demand src = (.ok b, s))
    (hItem : item depth b s = (.ok (.spelled v depth'), s'))
    (hLimit : limit < gathered.size + (v :: bytes).length)
    (hBehind :
      (gathered.push v).size ≤ limit →
        limit < (gathered.push v).size + bytes.length →
          (body limit depth' (gathered.push v) s').result =
            .error .tooLong) :
    (body limit depth gathered src).result =
      .error .tooLong := by
  by_cases hRoom : gathered.size < limit
  · rcases excess_cons hRoom hLimit with ⟨hSize, hMore⟩
    rw [body_push hDemand hItem hRoom]
    exact hBehind hSize hMore
  · exact body_full hDemand hItem hRoom

/-
  The number of open parentheses beside the bytes that were
  gathered, of which every inner one is one. The bytes that are
  allowed are fewer than 32 bits count.
-/
structure Counted
    (limit : Nat)
    (depth : UInt32)
    (gathered : Bytes) : Prop where
  some : depth ≠ 0
  few : depth.toNat ≤ gathered.size + 1
  limited : limit < 2 ^ 32 - 2

namespace Counted

variable {limit : Nat}
variable {depth : UInt32}
variable {gathered : Bytes}

/- With more bytes gathered this still holds. -/
theorem more
    (h : Counted limit depth gathered)
    {gathered' : Bytes}
    (hMore : gathered.size ≤ gathered'.size) :
    Counted limit depth gathered' :=
  ⟨h.some, Nat.le_trans h.few (Nat.succ_le_succ hMore),
    h.limited⟩

/- A byte is one more. -/
theorem push
    (h : Counted limit depth gathered)
    (b : UInt8) :
    Counted limit depth (gathered.push b) :=
  h.more (by rw [Array.size_push]; exact Nat.le_succ _)

/- So is an opening parenthesis, one level deeper. -/
theorem opened
    (h : Counted limit depth gathered)
    (hSize : gathered.size ≤ limit)
    (b : UInt8) :
    Counted limit (depth + 1) (gathered.push b) := by
  have hFew := h.few
  have hLimited := h.limited
  have hRoom : depth.toNat + 1 < 2 ^ 32 := by omega
  rcases deeper hRoom with ⟨hDeeper, hSome⟩
  constructor
  case some => exact hSome
  case few =>
    rw [hDeeper, Array.size_push]
    exact Nat.succ_le_succ hFew
  case limited => exact hLimited

/- A text whose bytes fit opens no more than can be counted. -/
theorem mostOpen_lt
    (h : Counted limit depth gathered)
    {text bytes : List UInt8}
    (hSpells : Spells text bytes)
    (hFits : gathered.size + bytes.length ≤ limit) :
    mostOpenFrom depth.toNat false text < 2 ^ 32 := by
  have hFew := h.few
  have hLimited := h.limited
  have hMost := hSpells.mostOpenFrom_le depth.toNat
  omega

end Counted

/- A text that spells too many bytes is given up. -/
theorem body_tooLong
    {text tail bytes : List UInt8}
    {src : σ}
    {limit : Nat}
    {gathered : Bytes}
    {depth : UInt32}
    (hSpells : Spells text bytes)
    (hCounted : Counted limit depth gathered)
    (hTail : Apart tail)
    (hSize : gathered.size ≤ limit)
    (hLimit : limit < gathered.size + bytes.length)
    (hSource : Supplies src (text ++ tail)) :
    (body limit depth gathered src).result =
      .error .tooLong := by
  induction hSpells generalizing src depth gathered tail with
  | nil => exact absurd hSize (Nat.not_le_of_lt hLimit)
  | plain hPlain _ ih =>
      rcases hSource.demand with ⟨s, hDemand, hRest⟩
      refine body_excess hDemand (item_plain depth s hPlain)
        hLimit ?_
      intro hSize hMore
      exact ih (hCounted.push _) hTail hSize hMore hRest
  | @nested inner rest bytes more hInner _ ihInner ihRest =>
      rw [List.cons_append, List.append_assoc,
        List.cons_append] at hSource
      rcases hSource.demand with ⟨s, hDemand, hOpened⟩
      have hInside := hCounted.opened hSize (code '(')
      refine body_excess hDemand rfl hLimit ?_
      intro hSize hMore
      -- The bytes are too many inside, or else at the closing
      -- parenthesis or behind it.
      by_cases hFits :
          (gathered.push (code '(')).size + bytes.length ≤
            limit
      · rcases body_spelled hInner hInside.some
            (hInside.mostOpen_lt hInner hFits) (apart_close _)
            hFits hOpened with
          ⟨s₁, hRead, hClosing⟩
        rcases hClosing.demand with ⟨s₂, hDemand₂, hClosed⟩
        rw [List.length_append, ← Nat.add_assoc] at hMore
        have hBehind :
            limit <
              (gathered.push (code '(') ++
                  bytes.toArray).size +
                (code ')' :: more).length := by
          rwa [Array.size_append, List.size_toArray]
        rw [hRead]
        refine body_excess hDemand₂
          (item_closing s₂ hCounted.some) hBehind ?_
        intro hSize₂ hMore₂
        refine ihRest (hCounted.more ?_) hTail hSize₂ hMore₂
          hClosed
        simp only [Array.size_push, Array.size_append]
        omega
      · exact ihInner hInside (apart_close _) hSize
          (Nat.lt_of_not_le hFits) hOpened
  | @lineBreak e rest bytes hBreak _ ih =>
      rw [List.append_assoc] at hSource
      by_cases hRoom : gathered.size < limit
      · rcases excess_cons hRoom hLimit with ⟨hSize, hMore⟩
        rcases body_lineBreak depth (hBreak.append hTail)
            hRoom hSource with
          ⟨s, hStep, hRest⟩
        rw [hStep]
        exact ih (hCounted.push _) hTail hSize hMore hRest
      · exact body_lineBreak_full depth (hBreak.append hTail)
          hRoom hSource
  | continued hBreak _ ih =>
      rw [List.cons_append, List.append_assoc] at hSource
      rcases hSource.demand with ⟨s, hDemand, hCode⟩
      rcases escape_lineBreak (hBreak.append hTail) hCode with
        ⟨s', hEscape, hRest⟩
      rw [body_item limit gathered hDemand
        (item_nothing depth hEscape)]
      exact ih hCounted hTail hSize hLimit hRest
  | octal hCode _ ih =>
      rw [List.cons_append, List.append_assoc] at hSource
      rcases hSource.demand with ⟨s, hDemand, hDigits⟩
      rcases escape_octal (hCode.append hTail) hDigits with
        ⟨s', hEscape, hRest⟩
      refine body_excess hDemand (item_escape depth hEscape)
        hLimit ?_
      intro hSize hMore
      exact ih (hCounted.push _) hTail hSize hMore hRest
  | escaped hOctal hLine _ ih =>
      rcases hSource.demand with ⟨s, hDemand, hLetter⟩
      rcases escape_other hOctal hLine hLetter with
        ⟨s', hEscape, hRest⟩
      refine body_excess hDemand (item_escape depth hEscape)
        hLimit ?_
      intro hSize hMore
      exact ih (hCounted.push _) hTail hSize hMore hRest

/- What ends a text that is not closed ends the reading. -/
theorem body_stub
    {tail : List UInt8}
    {src : σ}
    (limit : Nat)
    (depth : UInt32)
    (gathered : Bytes)
    (hTail : Stub tail)
    (hSource : Supplies src tail) :
    (body limit depth gathered src).result =
      .error .malformed := by
  have hEnd :
      ∀ {s : σ}, Supplies s [] →
        ∃ s', demand s = (.error .malformed, s') := by
    intro s hEmpty
    rcases hEmpty.atEnd with ⟨s', hNext, -⟩
    refine ⟨s', ?_⟩
    unfold demand
    rw [hNext]
  rcases hTail with rfl | rfl
  · rcases hEnd hSource with ⟨s, hDemand⟩
    rw [body_eq, hDemand]
  · rcases hSource.demand with ⟨s, hDemand, hEmpty⟩
    rcases hEnd hEmpty with ⟨s', hNone⟩
    rw [body_eq, hDemand]
    dsimp only
    unfold item escape
    rw [if_pos (beq_self_eq_true _), hNone]

/- A stub goes on with nothing. -/
theorem Stub.apart
    {tail : List UInt8}
    (h : Stub tail) :
    Apart tail := by
  rcases h with rfl | rfl
  · exact apart_nil
  · exact apart_cons (by decide) (by decide) []

/-
  A text that is not closed is given up where the input ends,
  or before that where the bytes become too many.
-/
theorem body_unclosed
    {text tail bytes : List UInt8}
    {src : σ}
    {limit : Nat}
    {gathered : Bytes}
    {depth : UInt32}
    (hText : Unclosed text bytes)
    (hCounted : Counted limit depth gathered)
    (hTail : Stub tail)
    (hSize : gathered.size ≤ limit)
    (hSource : Supplies src (text ++ tail)) :
    (body limit depth gathered src).result =
      .error
        (if gathered.size + bytes.length ≤ limit then
          .malformed
        else
          .tooLong) := by
  induction hText generalizing src depth gathered with
  | @spelled text bytes hText =>
      split
      next hFits =>
        rcases body_spelled hText hCounted.some
            (hCounted.mostOpen_lt hText hFits) hTail.apart hFits
            hSource with
          ⟨s, hRead, hEnd⟩
        rw [hRead]
        exact body_stub limit depth _ hTail hEnd
      next hFits =>
        exact body_tooLong hText hCounted hTail.apart hSize
          (Nat.lt_of_not_le hFits) hSource
  | @opened text bytes rest more hText _ ih =>
      have hOpen :
          Apart (code '(' :: (rest ++ tail)) :=
        apart_cons (by decide) (by decide) _
      rw [List.append_assoc, List.cons_append] at hSource
      rw [List.length_append, List.length_cons]
      by_cases hFits : gathered.size + bytes.length ≤ limit
      · rcases body_spelled hText hCounted.some
            (hCounted.mostOpen_lt hText hFits) hOpen hFits
            hSource with
          ⟨s, hRead, hOpening⟩
        rcases hOpening.demand with ⟨s', hDemand, hRest⟩
        rw [hRead]
        have hSum :
            (gathered ++ bytes.toArray).size =
              gathered.size + bytes.length :=
          Array.size_append
        by_cases hRoom :
            (gathered ++ bytes.toArray).size < limit
        · have hPushed :
              ((gathered ++ bytes.toArray).push
                (code '(')).size ≤ limit := by
            rwa [Array.size_push]
          have hBefore :
              Counted limit depth
                (gathered ++ bytes.toArray) :=
            hCounted.more (by omega)
          rw [body_push hDemand rfl hRoom,
            ih (hBefore.opened (Nat.le_of_lt hRoom) _) hPushed
              hRest,
            Array.size_push, hSum,
            Nat.add_right_comm, Nat.add_assoc _ more.length,
            Nat.add_assoc]
        · rw [body_full hDemand rfl hRoom, if_neg]
          omega
      · rw [if_neg (by omega)]
        exact body_tooLong hText hCounted hOpen hSize
          (Nat.lt_of_not_le hFits) hSource

/- At first one parenthesis is open and nothing is gathered. -/
theorem counted_empty
    {limit : Nat}
    (hLimited : limit < 2 ^ 32 - 2) :
    Counted limit 1 #[] :=
  ⟨by decide, Nat.le_refl 1, hLimited⟩

/- A text that is not closed is not read. -/
theorem read_unclosed
    {text tail bytes : List UInt8}
    {src : σ}
    {limit : Nat}
    (hLimited : limit < 2 ^ 32 - 2)
    (hText : Unclosed text bytes)
    (hTail : Stub tail)
    (hSource : Supplies src (text ++ tail)) :
    (read limit src).result =
      .error
        (if bytes.length ≤ limit then
          .malformed
        else
          .tooLong) := by
  have hEmpty : (#[] : Bytes).size ≤ limit :=
    Nat.zero_le limit
  have hRead := body_unclosed hText (counted_empty hLimited)
    hTail hEmpty hSource
  rwa [Array.size_empty, Nat.zero_add] at hRead

/- A text that spells too many bytes is not read. -/
theorem read_tooLong
    {text tail bytes : List UInt8}
    {src : σ}
    {limit : Nat}
    (hLimited : limit < 2 ^ 32 - 2)
    (hSpells : Spells text bytes)
    (hLimit : limit < bytes.length)
    (hSource : Supplies src (text ++ code ')' :: tail)) :
    (read limit src).result = .error .tooLong := by
  refine body_tooLong hSpells (counted_empty hLimited)
    (apart_close tail) (Nat.zero_le limit) ?_ hSource
  rwa [Array.size_empty, Nat.zero_add]

/- A text that spells so few bytes is read as them. -/
theorem read_few
    {text tail bytes : List UInt8}
    {src : σ}
    {limit : Nat}
    (hLimited : limit < 2 ^ 32 - 2)
    (hSpells : Spells text bytes)
    (hFits : bytes.length ≤ limit)
    (hSource : Supplies src (text ++ code ')' :: tail)) :
    ∃ s,
      read limit src = ⟨.ok (), bytes.toArray, s⟩ ∧
        Supplies s tail := by
  refine read_spelled hSpells ?_ hFits hSource
  exact (counted_empty hLimited).mostOpen_lt hSpells
    (by rwa [Array.size_empty, Nat.zero_add])

/-
  What an input is read as is decided by where it is closed. It
  is read as some bytes, and the source left at a rest, exactly
  if it spells them up to the parenthesis before the rest and
  they are not too many. If they are, this is the error. If no
  parenthesis closes it, the whole input spells some bytes but
  for a last backslash, and the error is that it ended, or that
  these bytes are too many.
-/
theorem read_decides
    {src : σ}
    {input : List UInt8}
    (limit : Nat)
    (hLimited : limit < 2 ^ 32 - 2)
    (hSource : Supplies src input) :
    (∀ bytes rest,
      (∃ s, read limit src = ⟨.ok (), bytes.toArray, s⟩ ∧
          Supplies s rest) ↔
        Closed input bytes rest ∧ bytes.length ≤ limit) ∧
      (∀ bytes rest, Closed input bytes rest →
        limit < bytes.length →
          (read limit src).result = .error .tooLong) ∧
      ((∀ bytes rest, ¬ Closed input bytes rest) →
        ∃ text tail bytes, input = text ++ tail ∧
          Unclosed text bytes ∧ Stub tail ∧
          (read limit src).result =
            .error
              (if bytes.length ≤ limit then
                .malformed
              else
                .tooLong)) := by
  refine ⟨fun bytes rest => ⟨?_, ?_⟩, ?_, ?_⟩
  · rintro ⟨s, hRead, hRest⟩
    cases split input with
    | @closed text spelled hText more =>
        by_cases hFits : spelled.length ≤ limit
        · rcases read_few hLimited hText hFits hSource with
            ⟨s', hRead', hMore⟩
          rw [hRead] at hRead'
          injection hRead' with _ hArray hSame
          injection hArray with hBytes
          subst hSame hBytes
          rw [hRest.unique hMore]
          exact ⟨⟨text, rfl, hText⟩, hFits⟩
        · have hError :=
            read_tooLong hLimited hText
              (Nat.lt_of_not_le hFits) hSource
          rw [hRead] at hError
          contradiction
    | unclosed hText hTail =>
        have hError :=
          read_unclosed hLimited hText hTail hSource
        rw [hRead] at hError
        contradiction
  · rintro ⟨⟨text, rfl, hText⟩, hFits⟩
    exact read_few hLimited hText hFits hSource
  · rintro bytes rest ⟨text, rfl, hText⟩ hLimit
    exact read_tooLong hLimited hText hLimit hSource
  · intro hOpen
    cases split input with
    | closed hText rest =>
        exact absurd ⟨_, rfl, hText⟩ (hOpen _ rest)
    | unclosed hText hTail =>
        exact ⟨_, _, _, rfl, hText, hTail,
          read_unclosed hLimited hText hTail hSource⟩

/-
  Two bytes are read where two are allowed, and not where one
  is. Nothing at all is not closed.
-/
theorem read_decides_nested :
    (∃ s,
      read 2 (Reader.ofList (Bytes.ofText "())x").toList) =
          ⟨.ok (), (Bytes.ofText "()").toList.toArray, s⟩ ∧
        Supplies s (Bytes.ofText "x").toList) ∧
      (read 1
          (Reader.ofList
            (Bytes.ofText "())x").toList)).result =
        .error .tooLong ∧
      (∃ text tail bytes, [] = text ++ tail ∧
        Unclosed text bytes ∧ Stub tail ∧
        (read 2 (Reader.ofList [])).result =
          .error
            (if bytes.length ≤ 2 then
              .malformed
            else
              .tooLong)) := by
  have hClosed :
      Closed (Bytes.ofText "())x").toList
        (Bytes.ofText "()").toList
        (Bytes.ofText "x").toList :=
    ⟨_, rfl, .nested .nil .nil⟩
  have hOpen : ∀ bytes rest, ¬ Closed [] bytes rest := by
    rintro bytes rest ⟨text, hEq, -⟩
    cases text <;> contradiction
  refine ⟨?_, ?_, ?_⟩
  · exact ((read_decides 2 (by decide)
      (Reader.supplies _)).1 _ _).mpr
      ⟨hClosed, by decide⟩
  · exact (read_decides 1 (by decide)
      (Reader.supplies _)).2.1 _ _
      hClosed (by decide)
  · exact (read_decides 2 (by decide)
      (Reader.supplies (Reader.ofList []))).2.2 hOpen

end PostScript.Parenthesised
