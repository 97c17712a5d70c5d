import PostScript.Workspace.Command

/-
  This file defines the parts that the commands of a session
  are made of: finding what is meant, keeping what is made and
  telling what is known about it.

  Key definitions include:
    * `Action`
    * `Action.name`
    * `Action.make`
    * `Action.mention`
    * `Action.forgetNames`
    * `Action.scanning`
-/

namespace PostScript

------------------------------------------------------------
-- Actions
------------------------------------------------------------

/- What a command does; it changes things also if it fails. -/
abbrev Action (α : Type) : Type :=
  EStateM Trouble Workspace α

namespace Action

/- Fail because something is not there. -/
def lacking
    {α : Type}
    (what : Missing) : Action α :=
  throw (.missing what)

/- Go on with what is there. -/
def expect
    {α : Type}
    (what : Missing) : Option α → Action α
  | some v => pure v
  | none => lacking what

/- Go on with a result, or fail with its cause. -/
def ofExcept
    {α : Type} : Except Cause α → Action α
  | .ok v => pure v
  | .error cause => throw (.failed (.ofCause cause))

/- Work on the table of names alone. -/
def onNames
    {α : Type}
    (x : EStateM Cause NameTable α) : Action α :=
  fun w =>
    match w with
    | ⟨names, scope, cfg, hs, os, ds, ss, rs⟩ =>
        match x names with
        | .ok v names' =>
            .ok v ⟨names', scope, cfg, hs, os, ds, ss, rs⟩
        | .error cause names' =>
            .error (.failed (.ofCause cause))
              ⟨names', scope, cfg, hs, os, ds, ss, rs⟩

/- The name behind a handle. -/
def handle
    (label : String) : Action Name := do
  let w ← get
  expect .handle (w.handles.get? label)

/- The dictionary under a label. -/
def dict
    (label : String) : Action Dictionary := do
  let w ← get
  expect .dict (w.dicts.get? label)

/- The source under a label. -/
def source
    (label : String) : Action OpenSource := do
  let w ← get
  expect .source (w.sources.get? label)

/- Keep a source with the byte that was just read from it. -/
def keepSource
    (label : String)
    (src : Source)
    (lastByte : Option UInt8) : Action Unit :=
  modify (fun w =>
    { w with sources := w.sources.insert label ⟨src, lastByte⟩ })

/- Make a name in the table. -/
def intern
    (f : NameTable → Bytes → Except Cause Name × NameTable)
    (bytes : Bytes) : Action Name :=
  onNames (fun names =>
    match f names bytes with
    | (.ok name, names') => .ok name names'
    | (.error cause, names') => .error cause names')

/- The name that is meant. -/
def name : NameRef → Action Name
  | .handle label => handle label
  | .bytes bytes => intern NameTable.intern bytes

/- Make the object that is described. -/
def make
    (r : Recipe) : Action Object :=
  fun w =>
    match r.make w.objects.get? w.names with
    | .ok o names => .ok o { w with names := names }
    | .error (.cause cause) names =>
        .error (.failed (.ofCause cause))
          { w with names := names }
    | .error .noObject names =>
        .error (.missing .object) { w with names := names }

/- What is told about a name. -/
def mention
    (name : Name) : Action Mention := do
  let w ← get
  let e := w.names.entry? name
  pure ⟨name, (e.map NameEntry.level).getD 0,
    (e.bind NameEntry.hint).bind w.scope.heap.read?⟩

/- Keep a name under a label, if there is one. -/
def keepName
    (keep : Option String)
    (name : Name) : Action Unit :=
  match keep with
  | some label =>
      modify (fun w =>
        { w with handles := w.handles.insert label name })
  | none => pure ()

/- Keep an object under a label, if there is one. -/
def keepObject
    (keep : Option String)
    (o : Object) : Action Unit :=
  match keep with
  | some label =>
      modify (fun w =>
        { w with objects := w.objects.insert label o })
  | none => pure ()

/- Keep objects under a label with their numbers. -/
def keepObjects
    (keep : Option String)
    (os : List Object) : Action Unit :=
  match keep with
  | some label =>
      modify (fun w =>
        { w with objects :=
          Shelf.insertNumbered label w.objects 0 os })
  | none => pure ()

/- Answer with a name that may have been found. -/
def answerName
    (keep : Option String)
    (found : Option Name) : Action Answer := do
  match found with
  | none =>
      let w ← get
      pure (.name none w.names.size)
  | some name =>
      keepName keep name
      let m ← mention name
      let w ← get
      pure (.name (some m) w.names.size)

/- The entries of a dictionary in the order of their keys. -/
def listing
    (d : Dictionary) : Action Listing := do
  let w ← get
  pure ((d.bindings w.scope.heap).mergeSort
    (fun a b => a.1.bytes.precedes b.1.bytes))

/- Answer whether something was there to be dropped. -/
def dropping
    {α : Type}
    (shelf : Workspace → Shelf α)
    (replace : Workspace → Shelf α → Workspace)
    (label : String) : Action Answer := do
  let w ← get
  set (replace w ((shelf w).erase label))
  pure (.dropped ((shelf w).get? label).isSome)

/- Forget names, given which of them are referenced. -/
def forgetNames
    (f : NameTable → (Name → Bool) → (SlotId → Bool) →
      NameTable) : Action Nat := do
  let w ← get
  let roots := w.rootIds
  let names := f w.names (fun n => roots.contains n.id)
    w.scope.heap.isLive
  set { w with names := names }
  pure (w.names.size - names.size)

/- Scan with the table and the stack of the workspace. -/
def scanning
    {σ α : Type}
    [ByteSource σ]
    (source : σ)
    (f : ScanSettings → Scanner.Rest σ Scope →
      α × Scanner.Rest σ Scope) : Action (α × σ) := do
  let w ← get
  let (v, rest) := f w.settings ⟨source, w.names, w.scope⟩
  set { w with names := rest.names, scope := rest.env }
  pure (v, rest.source)

/- Keep and tell what has been decoded. -/
def decoding
    (keep : Option String)
    (x : Scope → EStateM Cause NameTable (Object × Nat)) :
    Action Answer := do
  let w ← get
  let (o, used) ← onNames (x w.scope)
  keepObject keep o
  let w ← get
  pure (.decoded o used w.names.size)

/- The objects among the answers of calls. -/
def repliedObjects
    (rs : List (Scanner.Reply Source)) : List Object :=
  rs.filterMap (fun r =>
    match r.result with
    | .ok o => o
    | .error _ => none)

end Action

end PostScript
