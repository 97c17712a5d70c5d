import PostScript.Proofs.Scanner.Tokens
import PostScript.Scanner.Program

/-
  This file shows that a program text is scanned as the trees
  that it renders: every tree gives its object, in order and
  without an error, and the whole text is read.

  Key definitions include:
    * `Scanner.follow`

  Main results:
    * `Scanner.readObject_tree`
    * `Scanner.readObject_trees`
    * `Scanner.objects_rendered`
    * `Scanner.objects_of_known`
-/

namespace PostScript

open ByteSource

variable {σ ε : Type}
variable [ByteSource σ]
variable [Environment ε]

------------------------------------------------------------
-- Trees
------------------------------------------------------------

namespace Scanner

open ScanState

variable {cfg : ScanSettings}

/- Go on as a step says. -/
def follow
    (cfg : ScanSettings)
    (step : Step)
    (st : ScanState σ ε) :
    Except Cause (Option Object) × ScanState σ ε :=
  match step with
  | .answer r => (r, st)
  | .more outer => readObject cfg outer st

/- Reading goes on as the step of its first piece says. -/
theorem readObject_step
    (outer : OpenProcedures)
    (st : ScanState σ ε) :
    readObject cfg outer st =
      match Lexeme.read cfg (!outer.isEmpty) st with
      | (.error cause, st') => (.error cause, st')
      | (.ok l, st') =>
          follow cfg (step cfg st'.env outer l) st' := by
  rw [readObject]
  split
  next hRead => rw [hRead]
  next hRead =>
    rw [hRead]
    dsimp only
    unfold follow
    split <;> simp_all

/- The same where the piece is known. -/
theorem readObject_eq
    {outer : OpenProcedures}
    {st st' : ScanState σ ε}
    {l : Lexeme}
    (hRead :
      Lexeme.read cfg (!outer.isEmpty) st = (.ok l, st')) :
    readObject cfg outer st =
      follow cfg (step cfg st'.env outer l) st' := by
  rw [readObject_step, hRead]

/- One more element is put into an open procedure. -/
theorem place_more
    {elements : Array Object}
    {outer : OpenProcedures}
    (o : Object)
    (hRoom : elements.size < cfg.arrayLength) :
    place cfg (elements :: outer) o =
      .more (elements.push o :: outer) :=
  if_pos hRoom

/- A procedure that is closed is put where it belongs. -/
theorem closeProcedure_eq
    {env : ε}
    {elements : Array Object}
    (outer : OpenProcedures)
    (hLocal : Environment.StaysLocal env)
    (hLength : elements.size ≤ maxArrayLength) :
    closeProcedure cfg env (elements :: outer) =
      place cfg outer
        (.array elements.toList { executable := true }) := by
  unfold closeProcedure
  dsimp only
  rw [hLocal.makeArray true (by simpa using hLength)]

/- A tree that is no procedure is read as its object. -/
theorem readObject_simple
    {x : Tree}
    {blanks text tail : List UInt8}
    {st : ScanState σ ε}
    (outer : OpenProcedures)
    (hBlanks : Blanks blanks)
    (hText : Renders cfg x text)
    (hSimple : ∀ items, x ≠ .procedure items)
    (hEnd : TokenEnd tail)
    (hLocal : Environment.StaysLocal st.env)
    (hSource :
      Supplies st.source (blanks ++ (text ++ tail))) :
    ∃ o st',
      readObject cfg outer st =
          follow cfg (place cfg outer o) st' ∧
        st.Found x tail o st' := by
  rcases Lexeme.read_simple (!outer.isEmpty) hBlanks hText
      hSimple hEnd hLocal hSource with
    ⟨o, st', hRead, hFound⟩
  exact ⟨o, st', readObject_eq hRead, hFound⟩

/-
  A tree is read as its object, whichever procedures are open,
  and a list of trees that ends with a closing brace is read
  as the further elements of the innermost one. Both are shown
  together, by induction on the trees and not on their texts:
  a token may take a byte of the blanks behind it, so that the
  text of the trees that follow is not the one they had.
-/
mutual

theorem readObject_tree
    (x : Tree)
    {blanks text tail : List UInt8}
    {st : ScanState σ ε}
    (outer : OpenProcedures)
    (hBlanks : Blanks blanks)
    (hText : Renders cfg x text)
    (hEnd : TokenEnd tail)
    (hLocal : Environment.StaysLocal st.env)
    (hDepth : outer.length + x.depth ≤ cfg.procedureDepth)
    (hWidth : x.width ≤ min cfg.arrayLength maxArrayLength)
    (hSource :
      Supplies st.source (blanks ++ (text ++ tail))) :
    ∃ o st',
      readObject cfg outer st =
          follow cfg (place cfg outer o) st' ∧
        st.Found x tail o st' := by
  match x, hText, hDepth, hWidth with
  | .integer v, hText, _, _ =>
      exact readObject_simple outer hBlanks hText
        (fun _ h => nomatch h) hEnd hLocal hSource
  | .name bytes executable, hText, _, _ =>
      exact readObject_simple outer hBlanks hText
        (fun _ h => nomatch h) hEnd hLocal hSource
  | .string bytes, hText, _, _ =>
      exact readObject_simple outer hBlanks hText
        (fun _ h => nomatch h) hEnd hLocal hSource
  | .procedure items, .procedure hItems, hDepth, hWidth =>
      rw [Tree.depth] at hDepth
      rw [Tree.width] at hWidth
      rw [List.cons_append, List.append_assoc,
        List.singleton_append] at hSource
      have hOpen :
          openProcedure cfg outer = .more (#[] :: outer) :=
        if_pos (by omega)
      rcases Lexeme.read_opening cfg (!outer.isEmpty) hBlanks
          hSource with
        ⟨st₁, hRead, hReaches⟩
      rcases readObject_trees items #[] outer hItems
          (hLocal.hears hReaches.env) (by omega) (by omega)
          (by rw [List.size_toArray, List.length_nil]; omega)
          hReaches.source with
        ⟨os, st', hTrees, hClosed, hObjects⟩
      have hLength :
          (#[] ++ os.toArray).size ≤ maxArrayLength := by
        rw [Array.empty_append, List.size_toArray,
          Tree.length_objects? hObjects]
        omega
      have hLocal' : Environment.StaysLocal st'.env :=
        hLocal.hears (hReaches.env.trans hClosed.env)
      refine ⟨.array os { executable := true }, st', ?_, tail,
        hReaches.trans hClosed, .inl rfl, ?_⟩
      · calc readObject cfg outer st
            = follow cfg (openProcedure cfg outer) st₁ :=
              readObject_eq hRead
          _ = readObject cfg (#[] :: outer) st₁ := by
              rw [hOpen]
              rfl
          _ = _ := by
              rw [hTrees, closeProcedure_eq outer hLocal'
                hLength, Array.empty_append]
      · rw [Tree.object?, hObjects]
        rfl

theorem readObject_trees
    (xs : List Tree)
    {text tail : List UInt8}
    {st : ScanState σ ε}
    (elements : Array Object)
    (outer : OpenProcedures)
    (hText : RendersAll cfg false xs text)
    (hLocal : Environment.StaysLocal st.env)
    (hDepth :
      outer.length + 1 + Tree.deepest xs ≤
        cfg.procedureDepth)
    (hWidth :
      Tree.widest xs ≤ min cfg.arrayLength maxArrayLength)
    (hCount : elements.size + xs.length ≤ cfg.arrayLength)
    (hSource : Supplies st.source (text ++ 0x7d :: tail)) :
    ∃ os st',
      readObject cfg (elements :: outer) st =
          follow cfg
            (closeProcedure cfg st'.env
              ((elements ++ os.toArray) :: outer)) st' ∧
        st.Reaches st' tail ∧
          Tree.objects? st'.names xs = some os := by
  match xs, hText, hDepth, hWidth, hCount with
  | [], .nil hBlanks, _, _, _ =>
      rcases Lexeme.read_closing cfg hBlanks hSource with
        ⟨st', hRead, hReaches⟩
      have hPiece :
          Lexeme.read cfg (!(elements :: outer).isEmpty) st =
            (.ok .closing, st') :=
        hRead
      refine ⟨[], st', ?_, hReaches, rfl⟩
      rw [Array.append_empty]
      exact readObject_eq hPiece
  | x :: xs, .cons hBlanks _ hItem hRest, hDepth, hWidth,
      hCount =>
      rw [Tree.deepest] at hDepth
      rw [Tree.widest] at hWidth
      rw [List.length_cons] at hCount
      rw [List.append_assoc, List.append_assoc] at hSource
      have hCloses : Closes (0x7d :: tail) :=
        .inr ⟨tail, rfl⟩
      rcases readObject_tree x (elements :: outer) hBlanks
          hItem (hRest.tokenEnd hCloses) hLocal
          (by rw [List.length_cons]; omega) (by omega)
          hSource with
        ⟨o, st₁, hRead, left, hReaches, hLeft, hObject⟩
      rcases hRest.follows hCloses hLeft with
        ⟨text', rfl, hRest'⟩
      rcases readObject_trees xs (elements.push o) outer
          hRest' (hLocal.hears hReaches.env) (by omega)
          (by omega) (by rw [Array.size_push]; omega)
          hReaches.source with
        ⟨os, st', hTrees, hClosed, hObjects⟩
      refine ⟨o :: os, st', ?_, hReaches.trans hClosed,
        Tree.objects?_cons
          (Tree.object?_grows hClosed.names x o hObject)
          hObjects⟩
      have hMore :
          place cfg (elements :: outer) o =
            .more (elements.push o :: outer) :=
        place_more o (by omega)
      calc readObject cfg (elements :: outer) st
          = readObject cfg (elements.push o :: outer) st₁ := by
            rw [hRead, hMore]
            rfl
        _ = _ := by
            rw [hTrees]
            simp

end

------------------------------------------------------------
-- Programs
------------------------------------------------------------

/- A call gives what is read where no procedure is open. -/
theorem scan_eq
    {src : σ}
    {names : NameTable}
    {env : ε}
    {st : ScanState σ ε}
    {o : Option Object}
    (hRead :
      readObject cfg [] ⟨src, names, env, #[]⟩ = (.ok o, st)) :
    scan cfg ⟨src, names, env⟩ =
      (.ok o, ⟨st.source, st.names, st.env⟩) := by
  unfold scan
  dsimp only
  rw [hRead]

/- What a call answers has been read. -/
theorem readObject_of_scan
    {r r' : Rest σ ε}
    {o : Option Object}
    (hScan : scan cfg r = (.ok o, r')) :
    ∃ text,
      readObject cfg [] ⟨r.source, r.names, r.env, #[]⟩ =
        (.ok o, ⟨r'.source, r'.names, r'.env, text⟩) := by
  rcases r with ⟨source, names, env⟩
  unfold scan at hScan
  dsimp only at hScan
  split at hScan
  next hRead =>
    cases hScan
    exact ⟨_, hRead⟩
  next => cases hScan

/- Reading goes on as the first call says. -/
theorem objectsAfter_step
    (cfg : ScanSettings)
    (done : Array Object)
    (r : Rest σ ε) :
    objectsAfter cfg done r =
      match scan cfg r with
      | (.ok none, r') => ⟨done.toList, none, r'⟩
      | (.error e, r') => ⟨done.toList, some e, r'⟩
      | (.ok (some o), r') =>
          objectsAfter cfg (done.push o) r' := by
  rw [objectsAfter]
  split <;> rename_i hScan <;> rw [hScan]

/- It goes on behind an object. -/
theorem objectsAfter_some
    {r r' : Rest σ ε}
    {o : Object}
    (done : Array Object)
    (hScan : scan cfg r = (.ok (some o), r')) :
    objectsAfter cfg done r =
      objectsAfter cfg (done.push o) r' := by
  rw [objectsAfter_step, hScan]

/- It stops where the input ends. -/
theorem objectsAfter_none
    {r r' : Rest σ ε}
    (done : Array Object)
    (hScan : scan cfg r = (.ok none, r')) :
    objectsAfter cfg done r = ⟨done.toList, none, r'⟩ := by
  rw [objectsAfter_step, hScan]

/- Trees are scanned one by one, up to the end of the text. -/
theorem objectsAfter_trees
    {trees : List Tree}
    {text : List UInt8}
    {src : σ}
    {env : ε}
    (names : NameTable)
    (done : Array Object)
    (hText : RendersAll cfg false trees text)
    (hDepth : Tree.deepest trees ≤ cfg.procedureDepth)
    (hWidth :
      Tree.widest trees ≤ min cfg.arrayLength maxArrayLength)
    (hLocal : Environment.StaysLocal env)
    (hSource : Supplies src text) :
    ∃ os r,
      objectsAfter cfg done ⟨src, names, env⟩ =
          ⟨done.toList ++ os, none, r⟩ ∧
        Tree.objects? r.names trees = some os ∧
          names.Grows r.names ∧ Supplies r.source [] := by
  induction trees generalizing text src names env done with
  | nil =>
      cases hText with
      | nil hBlanks =>
          have hStart :
              Supplies (ScanState.mk src names env #[]).source
                text :=
            hSource
          rcases Lexeme.read_atEnd cfg
              (!List.isEmpty ([] : OpenProcedures)) hBlanks
              hStart with
            ⟨st, hRead, hReaches⟩
          refine ⟨[], ⟨st.source, st.names, st.env⟩, ?_, rfl,
            hReaches.names, hReaches.source⟩
          rw [List.append_nil]
          exact objectsAfter_none done
            (scan_eq (readObject_eq hRead))
  | cons x xs ih =>
      cases hText with
      | @cons _ _ _ blanks text rest hBlanks _ hItem hRest =>
          rw [Tree.deepest] at hDepth
          rw [Tree.widest] at hWidth
          have hCloses : Closes [] := .inl rfl
          rw [← List.append_nil rest] at hSource
          have hStart :
              Supplies (ScanState.mk src names env #[]).source
                (blanks ++ (text ++ (rest ++ []))) :=
            hSource
          rcases readObject_tree x [] hBlanks hItem
              (hRest.tokenEnd hCloses) hLocal
              (by rw [List.length_nil]; omega) (by omega)
              hStart with
            ⟨o, st, hRead, left, hReaches, hLeft, hObject⟩
          rcases hRest.follows hCloses hLeft with
            ⟨text', rfl, hRest'⟩
          rw [List.append_nil] at hReaches
          rcases ih st.names (done.push o) hRest' (by omega)
              (by omega) (hLocal.hears hReaches.env)
              hReaches.source with
            ⟨os, r, hMore, hObjects, hGrows, hEnd⟩
          refine ⟨o :: os, r, ?_,
            Tree.objects?_cons
              (Tree.object?_grows hGrows x o hObject)
              hObjects,
            hReaches.names.trans hGrows, hEnd⟩
          rw [objectsAfter_some done (scan_eq hRead), hMore,
            Array.toList_push, List.append_assoc]
          rfl

/-
  A text with so many parentheses open that their number
  wraps is cut where the first of them closes.
-/
theorem scan_wrapped
    {n : Nat}
    {tail : List UInt8}
    {src : σ}
    {env : ε}
    (names : NameTable)
    (hWraps : UInt32.ofNat n = 0)
    (hFits : n ≤ cfg.stringLength)
    (hLocal : Environment.StaysLocal env)
    (hSource :
      Supplies src
        (code '(' ::
          (List.replicate n (code '(') ++
            code ')' :: tail))) :
    (scan cfg ⟨src, names, env⟩).1 =
      .ok (some (.string
        (List.replicate n (code '(')).toArray {})) := by
  have hBegins : Lexeme.BeginsObject cfg (code '(') :=
    Lexeme.beginsObject_delimiter cfg (.inr (.inr rfl))
  have hStart :
      Supplies (ScanState.mk src names env #[]).source
        ([] ++ code '(' ::
          (List.replicate n (code '(') ++
            code ')' :: tail)) :=
    hSource
  rcases Lexeme.read_blanks
      (!List.isEmpty ([] : OpenProcedures)) .nil
      hBegins.toBeginsToken hStart with
    ⟨st, hRead, hReaches⟩
  rcases Parenthesised.read_wrapped hWraps hFits
      hReaches.source with
    ⟨s, hString, -⟩
  have hToken :
      Lexeme.tokenFrom cfg (code '(') st =
        Lexeme.stringOf
          ⟨.ok (), (List.replicate n (code '(')).toArray, s⟩
          st := by
    unfold Lexeme.tokenFrom
    rw [if_pos (beq_self_eq_true _), hString]
  rw [Lexeme.readFrom_object _ st hBegins, hToken] at hRead
  rw [scan_eq (readObject_eq hRead)]
  dsimp only
  rw [(hLocal.hears hReaches.env).newAttrs]

/- A nest of so many parentheses is another string then. -/
theorem scan_nest_ne
    {n : Nat}
    {env : ε}
    (names : NameTable)
    (hWraps : UInt32.ofNat n = 0)
    (hSome : 0 < n)
    (hFits : n ≤ cfg.stringLength)
    (hLocal : Environment.StaysLocal env) :
    (scan cfg
        ⟨Reader.ofList
          (code '(' :: (Parenthesised.nest n ++ [code ')'])),
          names, env⟩).1 ≠
      .ok (some (.string (Parenthesised.nest n).toArray {})) := by
  have hText :
      Parenthesised.nest n ++ [code ')'] =
        List.replicate n (code '(') ++
          code ')' :: List.replicate n (code ')') := by
    rw [Parenthesised.nest, List.append_assoc,
      ← List.replicate_succ', List.replicate_succ]
  have hSource :=
    Reader.supplies
      (Reader.ofList
        (code '(' :: (Parenthesised.nest n ++ [code ')'])))
  rw [hText] at hSource ⊢
  rw [scan_wrapped names hWraps hFits hLocal hSource]
  intro hSame
  simp only [Except.ok.injEq, Option.some.injEq,
    Object.string, Object.atom.injEq, Atom.string.injEq,
    and_true] at hSame
  have hLength := congrArg Array.size hSame
  rw [List.size_toArray, List.size_toArray,
    Parenthesised.length_nest, List.length_replicate]
    at hLength
  omega

/-
  What is rendered is scanned as it was. Whichever text
  renders the trees, in any source and with any table of
  names, scanning gives the objects that the trees stand for,
  in order, finds no error and reads the whole text. The names
  that are made on the way hide no others.
-/
theorem objects_rendered
    {trees : List Tree}
    {text : List UInt8}
    {src : σ}
    {env : ε}
    (names : NameTable)
    (hText : RendersAll cfg false trees text)
    (hDepth : Tree.deepest trees ≤ cfg.procedureDepth)
    (hWidth :
      Tree.widest trees ≤ min cfg.arrayLength maxArrayLength)
    (hLocal : Environment.StaysLocal env)
    (hSource : Supplies src text) :
    ∃ os r,
      objects cfg ⟨src, names, env⟩ = ⟨os, none, r⟩ ∧
        Tree.objects? r.names trees = some os ∧
          names.Grows r.names ∧ Supplies r.source [] :=
  objectsAfter_trees names #[] hText hDepth hWidth hLocal
    hSource

/- A comment, a procedure and a name behind it. -/
theorem objects_rendered_nested :
    ∃ os r,
      objects {}
          ⟨Reader.ofList
            (Bytes.ofText "%p\n\x7b1 /a (b)\x7d add").toList,
            NameTable.empty, ()⟩ = ⟨os, none, r⟩ ∧
        Tree.objects? r.names
            [.procedure
              [.integer 1, .name (Bytes.ofText "a") false,
                .string (Bytes.ofText "b")],
              .name (Bytes.ofText "add") true] = some os ∧
          NameTable.empty.Grows r.names ∧
            Supplies r.source [] := by
  have hComment : Blanks (Bytes.ofText "%p\n").toList :=
    @Blanks.comment [code 'p'] [] 0x0a
      (List.forall_mem_singleton.mpr rfl) rfl .nil
  have hSpace : Blanks [0x20] :=
    .white rfl .nil
  have hInteger :
      Renders {} (.integer 1) (Bytes.ofText "1").toList :=
    .integer (Numeral.unsigned
      ⟨by decide, List.all_eq_true.mp rfl⟩) (by decide)
  have hName :
      Renders {} (.name (Bytes.ofText "a") false)
        (Bytes.ofText "/a").toList :=
    .literal ⟨List.all_eq_true.mp rfl, by decide, by decide⟩
  have hString :
      Renders {} (.string (Bytes.ofText "b"))
        (Bytes.ofText "(b)").toList :=
    .parenthesised (.plain (by decide) .nil) (by decide)
      (by decide)
  have hWord :
      Renders {} (.name (Bytes.ofText "add") true)
        (Bytes.ofText "add").toList := by
    refine .executable
      ⟨⟨List.all_eq_true.mp rfl, by decide, by decide⟩,
        by decide, rfl, ?_, fun h => nomatch h⟩
    intro _ b hb
    cases hb
    rfl
  have hItems :
      RendersAll {} false
        [.integer 1, .name (Bytes.ofText "a") false,
          .string (Bytes.ofText "b")]
        (Bytes.ofText "1 /a (b)").toList :=
    .cons .nil (absurd · Bool.false_ne_true) hInteger
      (.cons hSpace (fun _ => List.cons_ne_nil _ _) hName
        (.cons hSpace (fun _ => List.cons_ne_nil _ _) hString
          (.nil .nil)))
  have hText :
      RendersAll {} false
        [.procedure
          [.integer 1, .name (Bytes.ofText "a") false,
            .string (Bytes.ofText "b")],
          .name (Bytes.ofText "add") true]
        (Bytes.ofText "%p\n\x7b1 /a (b)\x7d add").toList :=
    .cons hComment (absurd · Bool.false_ne_true)
      (.procedure hItems)
      (.cons hSpace (fun _ => List.cons_ne_nil _ _) hWord
        (.nil .nil))
  exact objects_rendered .empty hText (by decide) (by decide)
    staysLocal_unit (Reader.supplies _)

/-
  A string with 2 ^ 32 parentheses nested in it is not scanned
  as it was, since their number wraps. Nor is a word that is
  neither a number nor a name, but too long a number.
-/
theorem objects_rendered_wrapped :
    (Parenthesised.Spells (Parenthesised.nest (2 ^ 32))
        (Parenthesised.nest (2 ^ 32)) ∧
      (Parenthesised.nest (2 ^ 32)).length ≤ 2 ^ 33 ∧
      (scan { stringLength := 2 ^ 33 }
          ⟨Reader.ofList
            (code '(' ::
              (Parenthesised.nest (2 ^ 32) ++ [code ')'])),
            NameTable.empty, ()⟩).1 ≠
        .ok (some (.string
          (Parenthesised.nest (2 ^ 32)).toArray {}))) ∧
    ((∀ b ∈ (Bytes.ofText "16#100000000g").toList,
        isRegular b = true) ∧
      (∀ v,
        Number.ofLiteral
            (Bytes.ofText "16#100000000g").toList ≠
          .ok (some v)) ∧
      (objects {}
          ⟨Reader.ofList
            (Bytes.ofText "16#100000000g").toList,
            NameTable.empty, ()⟩).failure.map Error.kind =
        some .limitCheck) := by
  refine ⟨⟨Parenthesised.spells_nest _, ?_, ?_⟩, ?_, ?_, ?_⟩
  · exact Nat.le_of_eq (Parenthesised.length_nest _)
  · exact scan_nest_ne NameTable.empty (by decide) (by decide)
      (by decide) staysLocal_unit
  · exact List.all_eq_true.mp rfl
  · intro v hNumber
    have hLong :
        Number.ofLiteral
            (Bytes.ofText "16#100000000g").toList =
          .error .tooLong := by
      decide +kernel
    rw [hLong] at hNumber
    cases hNumber
  · decide +kernel

/-
  Objects whose names are all in the table are scanned as the
  very same objects.
-/
theorem objects_of_known
    {trees : List Tree}
    {text : List UInt8}
    {src : σ}
    {env : ε}
    {names : NameTable}
    {os : List Object}
    (hKnown : Tree.objects? names trees = some os)
    (hText : RendersAll cfg false trees text)
    (hDepth : Tree.deepest trees ≤ cfg.procedureDepth)
    (hWidth :
      Tree.widest trees ≤ min cfg.arrayLength maxArrayLength)
    (hLocal : Environment.StaysLocal env)
    (hSource : Supplies src text) :
    (objects cfg ⟨src, names, env⟩).objects = os := by
  rcases objectsAfter_trees names #[] hText hDepth hWidth
      hLocal hSource with
    ⟨os', r, hScan, hObjects, hGrows, -⟩
  have hSame :=
    Tree.objects?_grows hGrows trees os hKnown
  rw [hObjects] at hSame
  unfold objects
  rw [hScan]
  exact Option.some.inj hSame

end Scanner

end PostScript
