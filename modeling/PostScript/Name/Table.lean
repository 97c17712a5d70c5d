import PostScript.ByteOrder
import PostScript.Error
import PostScript.Name.Basic
import PostScript.Name.SystemNames

/-
  This file defines the table that names are kept in, so that
  the same bytes always give the same name. Names made after
  a save can be forgotten again.

  Key definitions include:
    * `nameHash`
    * `NameTable`
    * `NameTable.initial`
    * `NameTable.lookup`
    * `NameTable.intern`
    * `NameTable.internLong`
    * `NameTable.purge`
    * `NameTable.collect`
-/

namespace PostScript

------------------------------------------------------------
-- Hash
------------------------------------------------------------

/- Mix one word into a hash. -/
def mixHash
    (h word : UInt32) : UInt32 :=
  let h := ((h <<< 7) ||| (h >>> 25)) ^^^ word
  h + (h >>> 11)

/- Mix bytes into a hash, four at a time. -/
def hashFrom
    (h : UInt32) : List UInt8 → UInt32
  | a :: b :: c :: d :: rest =>
      hashFrom
        (mixHash h (ByteOrder.big.word32 [a, b, c, d])) rest
  | [] => h
  | rest => mixHash h (ByteOrder.big.word32 rest)

/- The hash of a name, which depends on its length first. -/
def nameHash
    (bytes : Bytes) : UInt32 :=
  hashFrom (UInt32.ofNat bytes.size) bytes.toList

/- The number of buckets of a table. -/
abbrev bucketCount : Nat :=
  2048

/- The bucket that a name belongs to. -/
def bucketOf
    (bytes : Bytes) : Fin bucketCount :=
  ⟨(nameHash bytes).toNat % bucketCount,
    Nat.mod_lt _ (by decide)⟩

------------------------------------------------------------
-- Tables
------------------------------------------------------------

/-
  What a table keeps about a name: the save level it was made
  at and the cell it was last found in.
-/
structure NameEntry where
  name : Name
  level : UInt32
  hint : Option SlotId
deriving DecidableEq, Repr

/- A table of names, with the system names by number. -/
structure NameTable where
  buckets : Vector (List NameEntry) bucketCount
  system : Array Name
  size : Nat
  level : UInt32
  nextId : Nat

namespace NameTable

/- A table without any names. -/
def empty : NameTable :=
  ⟨Vector.replicate bucketCount [], #[], 0, 0, 0⟩

/- All entries, bucket by bucket. -/
def entries
    (t : NameTable) : List NameEntry :=
  t.buckets.toList.flatten

/- Add an entry at the end of its bucket. -/
def link
    (t : NameTable)
    (e : NameEntry) : NameTable :=
  let i := bucketOf e.name.bytes
  { t with
    buckets := t.buckets.set i (t.buckets[i] ++ [e])
    size := t.size + 1
    nextId := t.nextId + 1 }

/- Make a name that is not yet in the table. -/
def make
    (t : NameTable)
    (bytes : Bytes)
    (systemIndex : Option Nat) : Name × NameTable :=
  let name : Name := ⟨t.nextId, bytes, systemIndex⟩
  (name, t.link ⟨name, t.level, none⟩)

/- Make a name and give it the next number of the system. -/
def makeSystem
    (t : NameTable)
    (bytes : Bytes) : NameTable :=
  let (name, t) := t.make bytes (some t.system.size)
  { t with system := t.system.push name }

/- The table that holds the system names alone. -/
def initial : NameTable :=
  systemNames.foldl makeSystem empty

/- The entry with the given bytes, searched from the end. -/
def find?
    (t : NameTable)
    (bytes : Bytes) : Option NameEntry :=
  t.buckets[bucketOf bytes].reverse.find?
    (fun e => e.name.bytes == bytes)

/- The name with the given bytes. -/
def lookup
    (t : NameTable)
    (bytes : Bytes) : Option Name :=
  (t.find? bytes).map NameEntry.name

/- The name of at most `limit` bytes, made if it is new. -/
def internWithin
    (limit : Nat)
    (t : NameTable)
    (bytes : Bytes) : Except Cause Name × NameTable :=
  if limit < bytes.size then
    (.error .tooLong, t)
  else
    match t.lookup bytes with
    | some name => (.ok name, t)
    | none =>
        let (name, t) := t.make bytes none
        (.ok name, t)

/- The name of a token in program text. -/
def intern
    (t : NameTable)
    (bytes : Bytes) : Except Cause Name × NameTable :=
  internWithin maxNameLength t bytes

/- The name in a binary object sequence. -/
def internLong
    (t : NameTable)
    (bytes : Bytes) : Except Cause Name × NameTable :=
  internWithin maxLongNameLength t bytes

/- The system name with the given number. -/
def systemName?
    (t : NameTable)
    (index : Nat) : Option Name :=
  t.system[index]?

------------------------------------------------------------
-- Entries of Known Names
------------------------------------------------------------

/- The entry of a name. -/
def entry?
    (t : NameTable)
    (name : Name) : Option NameEntry :=
  t.buckets[bucketOf name.bytes].find?
    (fun e => e.name.is name)

/- The cell that a name was last found in. -/
def hint
    (t : NameTable)
    (name : Name) : Option SlotId :=
  (t.entry? name).bind NameEntry.hint

/- Remember or forget the cell that a name was found in. -/
def setHint
    (t : NameTable)
    (name : Name)
    (hint : Option SlotId) : NameTable :=
  let i := bucketOf name.bytes
  { t with
    buckets := t.buckets.set i
      (t.buckets[i].map
        (fun e =>
          if e.name.is name then
            { e with hint := hint }
          else
            e)) }

/- Set the save level that new names are stamped with. -/
def setLevel
    (t : NameTable)
    (level : UInt32) : NameTable :=
  { t with level := level }

------------------------------------------------------------
-- Forgetting Names
------------------------------------------------------------

/- Keep, change or drop every entry. -/
def filterMap
    (t : NameTable)
    (f : NameEntry → Option NameEntry) : NameTable :=
  let buckets := t.buckets.map (List.filterMap f)
  { t with
    buckets := buckets
    size := t.size -
      (t.entries.countP (fun e => (f e).isNone)) }

/-
  What becomes of an entry when the save level falls. A name
  of a higher level stays if something refers to it or if the
  cell it was found in is alive; it is then stamped with the
  new level and forgets the cell.
-/
def purgeEntry
    (referenced : Name → Bool)
    (alive : SlotId → Bool)
    (level : UInt32)
    (e : NameEntry) : Option NameEntry :=
  if e.level ≤ level then
    some e
  else if e.name.systemIndex.isSome ||
      referenced e.name || e.hint.any alive then
    some { e with level := level, hint := none }
  else
    none

/-
  Forget the names made above a save level that nothing needs
  any more.
-/
def purge
    (t : NameTable)
    (referenced : Name → Bool)
    (alive : SlotId → Bool)
    (level : UInt32) : NameTable :=
  (t.filterMap (purgeEntry referenced alive level)).setLevel
    level

/- System names and referenced names are in use. -/
def collectEntry
    (referenced : Name → Bool)
    (e : NameEntry) : Option NameEntry :=
  if e.name.systemIndex.isSome || referenced e.name then
    some e
  else
    none

/- Forget the names that nothing refers to. -/
def collect
    (t : NameTable)
    (referenced : Name → Bool) : NameTable :=
  t.filterMap (collectEntry referenced)

end NameTable

end PostScript
