import PostScript.Object.Recipe
import PostScript.Scanner.Program
import PostScript.Sequence.Format
import PostScript.Workspace.Basic

/-
  This file defines the commands of a session and the answers
  that they may have.

  Key definitions include:
    * `Command`
    * `Trouble`
    * `Answer`
-/

namespace PostScript

------------------------------------------------------------
-- Commands
------------------------------------------------------------

/- A name, by its handle or by its bytes. -/
inductive NameRef where
  | handle (label : String)
  | bytes (bytes : Bytes)

/- The commands of a session. -/
inductive Command where
  | intern (name : Bytes) (keep : Option String)
  | internLong (name : Bytes) (keep : Option String)
  | lookup (name : Bytes) (keep : Option String)
  | systemName (index : Nat) (keep : Option String)
  | dropHandle (label : String)
  | showName (label : String)
  | compare (a b : String)
  | setLevel (level : UInt32)
  | purge (level : UInt32)
  | collect
  | showTable (sorted : Bool)
  | listTable (start : Nat)
  | putSlot (label : String) (value : Recipe)
  | dropSlot (label : String)
  | setHint (handle slot : String)
  | clearHint (handle : String)
  | newDict (label : String) (copyOf : Option String)
  | insert (dict : String) (key : NameRef) (value : Recipe)
  | lookIn (dict : String) (key : NameRef)
  | showDict (label : String)
  | dropDict (label : String)
  | newStack (system : Option String)
  | pushDict (label : String)
  | popDict (keep : Option String)
  | define (key : NameRef) (value : Recipe)
  | defineSystem (key : NameRef) (value : Recipe)
  | load (key : NameRef)
  | allocate (vm : Vm)
  | save
  | restore
  | hold (label : String) (value : Recipe)
  | showObject (label : String)
  | release (label : String)
  | releaseAll
  | configure (settings : ScanSettings)
  | scan (source : Source) (failures : Nat)
      (keep : Option String)
  | scanBytes (data : Bytes) (offset : Nat) (line : Int)
  | openSource (label : String) (source : Source)
  | scanNext (label : String) (keep : Option String)
  | nextByte (label : String)
  | pushBack (label : String)
  | hearComments
  | decodeToken (data : Bytes) (keep : Option String)
  | decodeSequence (data : Bytes) (keep : Option String)
  | encode (format : SequenceFormat) (value : Recipe)

------------------------------------------------------------
-- Answers
------------------------------------------------------------

/- What a session cannot find. -/
inductive Missing where
  | handle
  | object
  | dict
  | slot
  | source
  | byte
deriving DecidableEq, Repr

/- Why a command has no answer of its own. -/
inductive Trouble where
  | missing (what : Missing)
  | failed (e : Error)
deriving DecidableEq, Repr

/-
  A name with its save level and the value of the cell that
  it was last found in.
-/
structure Mention where
  name : Name
  level : UInt32
  hinted : Option Object

/- The entries of a dictionary in the order of their keys. -/
abbrev Listing : Type :=
  List (Name × Object)

/- The answers of commands. -/
inductive Answer where
  | name (found : Option Mention) (size : Nat)
  | mention (found : Mention)
  | dropped (was : Bool)
  | equal (v : Bool)
  | level (v : UInt32)
  | purged (removed size : Nat) (level : UInt32)
  | collected (removed size : Nat)
  | table (size : Nat) (level : UInt32)
      (entries : List (NameEntry × Bool))
  | bytesOfNames (names : List Bytes)
  | slots (count : Nat)
  | dict (entries : Listing)
  | value (v : Option Object)
  | depth (v : Nat)
  | popped (entries : Option Listing) (depth : Nat)
  | loaded (v : Option Object) (key : Mention)
  | vm (v : Vm)
  | saved (tableLevel stackLevel : UInt32)
  | restored (removed size : Nat)
      (tableLevel stackLevel : UInt32)
  | object (v : Object)
  | settings (v : ScanSettings)
  | replies (v : List (Scanner.Reply Source))
  | bytesScanned (v : Option (Object × Nat × Int))
  | position (source : Source)
  | reply (v : Scanner.Reply Source)
  | byte (v : Except Error (Option UInt8)) (source : Source)
  | comments (v : List Bytes)
  | decoded (v : Object) (used size : Nat)
  | encoded (bytes : Bytes)
  | nothing

end PostScript
