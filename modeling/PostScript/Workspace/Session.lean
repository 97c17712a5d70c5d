import PostScript.BinaryToken
import PostScript.Sequence.Reading
import PostScript.Sequence.Writing
import PostScript.Workspace.Action

/-
  This file defines what each command does to a workspace.

  Key definitions include:
    * `Action.ofCommand`
    * `Workspace.perform`
    * `Workspace.performAll`
-/

namespace PostScript

------------------------------------------------------------
-- Commands
------------------------------------------------------------

namespace Action

/- Tell which names the table holds, but no system names. -/
def showTable
    (sorted : Bool) : Action Answer := do
  let w ← get
  let user := w.names.entries.filter
    (fun e => e.name.systemIndex.isNone)
  let shown := if sorted then
      user.mergeSort
        (fun a b => a.name.bytes.precedes b.name.bytes)
    else
      user
  pure (.table w.names.size w.names.level
    (shown.map
      (fun e => (e, e.hint.any w.scope.heap.isLive))))

/- Put a value into a new cell or into the one that is kept. -/
def putSlot
    (label : String)
    (r : Recipe) : Action Answer := do
  let o ← make r
  let w ← get
  match w.slots.get? label with
  | some slot =>
      set { w with scope :=
        ⟨w.scope.stack, w.scope.heap.write slot o⟩ }
      pure (.slots w.slots.size)
  | none =>
      let (slot, heap) := w.scope.heap.allocate o
      let slots := w.slots.insert label slot
      set { w with
        scope := ⟨w.scope.stack, heap⟩, slots := slots }
      pure (.slots slots.size)

/- Make a name remember a cell, or forget it. -/
def setHint
    (n : Name)
    (hint : Option SlotId) : Action Answer := do
  modify (fun w =>
    { w with names := w.names.setHint n hint })
  let m ← mention n
  pure (.mention m)

/- Bind a key in a dictionary that is kept. -/
def insert
    (label : String)
    (key : NameRef)
    (r : Recipe) : Action Answer := do
  let n ← name key
  let o ← make r
  let d ← dict label
  let w ← get
  let (d, heap) := d.insert n o w.scope.heap
  set { w with
    scope := ⟨w.scope.stack, heap⟩
    dicts := w.dicts.insert label d }
  let l ← listing d
  pure (.dict l)

/- Bind a name on the stack. -/
def define
    (key : NameRef)
    (r : Recipe)
    (f : Name → Object → Workspace → Workspace) :
    Action Answer := do
  let n ← name key
  let o ← make r
  modify (f n o)
  let m ← mention n
  let w ← get
  pure (.name (some m) w.names.size)

/- Put a new stack in place of the old one. -/
def newStack
    (system : Option String) : Action Answer := do
  let d ← match system with
    | some label => dict label
    | none => pure Dictionary.empty
  modify (fun w =>
    { w with scope := ⟨.ofSystem d, w.scope.heap⟩ })
  let w ← get
  pure (.depth w.scope.stack.depth)

/- Push a copy of a dictionary. -/
def pushDict
    (label : String) : Action Answer := do
  let d ← dict label
  let w ← get
  let (stack, names) := w.scope.stack.push d w.names
  set { w with
    names := names, scope := ⟨stack, w.scope.heap⟩ }
  pure (.depth stack.depth)

/- Pop a dictionary and keep it if wanted. -/
def popDict
    (keep : Option String) : Action Answer := do
  let w ← get
  let (popped, stack) := w.scope.stack.pop
  let w := { w with scope := ⟨stack, w.scope.heap⟩ }
  match popped with
  | none =>
      set w
      pure (.popped none stack.depth)
  | some d =>
      match keep with
      | some label =>
          set { w with dicts := w.dicts.insert label d }
      | none => set w
      let l ← listing d
      pure (.popped (some l) stack.depth)

/- Enter a save level. -/
def save : Action Answer := do
  let w ← get
  let (stack, names) := w.scope.stack.save w.names
  set { w with
    names := names, scope := ⟨stack, w.scope.heap⟩ }
  pure (.saved names.level stack.level)

/- Leave a save level. -/
def restore : Action Answer := do
  let w ← get
  let roots := w.rootIds
  let (stack, names) := w.scope.stack.restore w.names
    (fun n => roots.contains n.id) w.scope.heap.isLive
  set { w with
    names := names, scope := ⟨stack, w.scope.heap⟩ }
  pure (.restored (w.names.size - names.size) names.size
    names.level stack.level)

/- Look a name up on the stack. -/
def load
    (key : NameRef) : Action Answer := do
  let n ← name key
  let w ← get
  let (v, names) := w.names.load w.scope n
  set { w with names := names }
  let m ← mention n
  pure (.loaded v m)

/- Call the scanner once on a source that is kept. -/
def scanNext
    (label : String)
    (keep : Option String) : Action Answer := do
  let opened ← source label
  let (r, src) ← scanning opened.source Scanner.scan
  keepSource label src none
  match r with
  | .ok (some o) => keepObject keep o
  | _ => pure ()
  pure (.reply ⟨r, src⟩)

/- Call the scanner on a source to its end. -/
def scanAll
    (src : Source)
    (failures : Nat)
    (keep : Option String) : Action Answer := do
  let (rs, _) ← scanning src
    (fun cfg rest => Scanner.transcript cfg failures rest)
  keepObjects keep (repliedObjects rs)
  pure (.replies rs)

/- Call the scanner on bytes from an offset on. -/
def scanBytes
    (data : Bytes)
    (offset : Nat)
    (line : Int) : Action Answer := do
  let r := Reader.startingAt data.toList offset line
  let (result, r) ← scanning r Scanner.scan
  match result with
  | .error e => throw (.failed e)
  | .ok none => pure (.bytesScanned none)
  | .ok (some o) =>
      pure (.bytesScanned (some (o, r.offset, r.lines.raw)))

/- Read one byte from a source that is kept. -/
def nextByte
    (label : String) : Action Answer := do
  let opened ← source label
  let (fetch, src) := opened.source.next
  match fetch with
  | .byte b =>
      keepSource label src (some b)
      pure (.byte (.ok (some b)) src)
  | .atEnd =>
      keepSource label src none
      pure (.byte (.ok none) src)
  | .failed m =>
      keepSource label src none
      pure (.byte (.error (.ofCause (.source m))) src)

/- Push back the byte that was just read from a source. -/
def pushBack
    (label : String) : Action Answer := do
  let opened ← source label
  match opened.lastByte with
  | none => lacking .byte
  | some b =>
      let src := opened.source.pushBack b
      keepSource label src none
      pure (.position src)

/- Hand out the comments heard so far. -/
def hearComments : Action Answer := do
  let w ← get
  let stack := w.scope.stack
  set { w with
    scope := ⟨{ stack with comments := [] }, w.scope.heap⟩ }
  pure (.comments stack.comments.reverse)

/- What a command does. -/
def ofCommand : Command → Action Answer
  | .intern bytes keep => do
      let n ← intern NameTable.intern bytes
      answerName keep (some n)
  | .internLong bytes keep => do
      let n ← intern NameTable.internLong bytes
      answerName keep (some n)
  | .lookup bytes keep => do
      let w ← get
      answerName keep (w.names.lookup bytes)
  | .systemName index keep => do
      let w ← get
      answerName keep (w.names.systemName? index)
  | .dropHandle label =>
      dropping Workspace.handles
        (fun w s => { w with handles := s }) label
  | .showName label => do
      let n ← handle label
      let m ← mention n
      pure (.mention m)
  | .compare a b => do
      let m ← handle a
      let n ← handle b
      pure (.equal (m.is n))
  | .setLevel level => do
      modify (fun w =>
        { w with names := w.names.setLevel level })
      pure (.level level)
  | .purge level => do
      let removed ← forgetNames
        (fun names refers alive =>
          names.purge refers alive level)
      let w ← get
      pure (.purged removed w.names.size w.names.level)
  | .collect => do
      let removed ← forgetNames
        (fun names refers _ => names.collect refers)
      let w ← get
      pure (.collected removed w.names.size)
  | .showTable sorted => showTable sorted
  | .listTable start => do
      let w ← get
      pure (.bytesOfNames
        (((w.names.entries.drop start).take 60).map
          (fun e => e.name.bytes)))
  | .putSlot label r => putSlot label r
  | .dropSlot label =>
      dropping Workspace.slots
        (fun w s => { w with slots := s }) label
  | .setHint label slot => do
      let n ← handle label
      let w ← get
      let id ← expect .slot (w.slots.get? slot)
      setHint n (some id)
  | .clearHint label => do
      let n ← handle label
      setHint n none
  | .newDict label copyOf => do
      let d ← match copyOf with
        | some other => dict other
        | none => pure Dictionary.empty
      modify (fun w =>
        { w with dicts := w.dicts.insert label d })
      let l ← listing d
      pure (.dict l)
  | .insert label key r => insert label key r
  | .lookIn label key => do
      let n ← name key
      let d ← dict label
      let w ← get
      pure (.value ((d.find? n).bind w.scope.heap.read?))
  | .showDict label => do
      let d ← dict label
      let l ← listing d
      pure (.dict l)
  | .dropDict label =>
      dropping Workspace.dicts
        (fun w s => { w with dicts := s }) label
  | .newStack system => newStack system
  | .pushDict label => pushDict label
  | .popDict keep => popDict keep
  | .define key r =>
      define key r (fun n o w =>
        let (scope, names) := w.scope.define w.names n o
        { w with names := names, scope := scope })
  | .defineSystem key r =>
      define key r (fun n o w =>
        { w with scope := w.scope.defineSystem n o })
  | .load key => load key
  | .allocate vm => do
      modify (fun w =>
        { w with scope :=
          ⟨{ w.scope.stack with vm := vm }, w.scope.heap⟩ })
      pure (.vm vm)
  | .save => save
  | .restore => restore
  | .hold label r => do
      let o ← make r
      keepObject (some label) o
      pure (.object o)
  | .showObject label => do
      let w ← get
      let o ← expect .object (w.objects.get? label)
      pure (.object o)
  | .release label =>
      dropping Workspace.objects
        (fun w s => { w with objects := s }) label
  | .releaseAll => do
      modify (fun w => { w with objects := ∅ })
      pure .nothing
  | .configure cfg => do
      modify (fun w => { w with settings := cfg })
      pure (.settings cfg)
  | .scan src failures keep => scanAll src failures keep
  | .scanBytes data offset line =>
      scanBytes data offset line
  | .openSource label src => do
      keepSource label src none
      pure (.position src)
  | .scanNext label keep => scanNext label keep
  | .nextByte label => nextByte label
  | .pushBack label => pushBack label
  | .hearComments => hearComments
  | .decodeToken data keep =>
      decoding keep (fun env => BinaryToken.decode env data)
  | .decodeSequence data keep =>
      decoding keep (fun env => Sequence.read env data)
  | .encode format r => do
      let o ← make r
      let writer : Sequence.Writer := ⟨format, true⟩
      let bytes ← ofExcept (writer.write o)
      pure (.encoded bytes)

end Action

------------------------------------------------------------
-- Sessions
------------------------------------------------------------

namespace Workspace

/-
  Do a command. Cells that nothing holds afterwards are given
  up, also if the command fails.
-/
def perform
    (w : Workspace)
    (c : Command) : Except Trouble Answer × Workspace :=
  match Action.ofCommand c w with
  | .ok v w' => (.ok v, w'.sweep)
  | .error t w' => (.error t, w'.sweep)

/- Do commands one after the other. -/
def performAll
    (w : Workspace) : List Command → Workspace
  | [] => w
  | c :: cs => performAll (w.perform c).2 cs

end Workspace

end PostScript
