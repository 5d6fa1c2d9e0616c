import Teeny.Files.Tree

/-!
# Output files

An output is written beside its destination and put in place only when it is complete: until then
its data is in a pending file in the same directory, under a name of its own. Committing an output
gives the pending file the destination's path and so replaces what was there in one step; aborting
it removes the pending file. Either closes the output for good.

The name of a pending file ends in a number that is drawn when the output is created. How many
digits it has is not up to the output, and a pending file whose name or path is too long with them
is not made.

The new file has the permissions of the regular file that was at the destination when the output
was created, and otherwise the usual ones less those that the volume masks.
-/

namespace Teeny

/-- A file tree and what new files depend on. -/
structure Volume where
  tree : Tree
  /-- The permissions that new files do not get. -/
  umask : UInt16
  /-- The number that the next pending file gets. -/
  serial : Nat
  /-- What is written for the number in the name of a pending file. -/
  tag : Bytes
  deriving DecidableEq

/-- A file that is being written. -/
structure Output where
  /-- The destination. -/
  path : Bytes
  /-- The directory of the pending file, with its final slash; nothing for the root. -/
  home : Bytes
  /-- The name of the pending file. -/
  name : Name
  /-- How many digits the number in that name has. -/
  digits : Nat
  closed : Bool
  deriving DecidableEq

/-- Why an operation on an output fails. -/
inductive OutputError where
  | uncreated (cause : FileError)
  | unreplaced (cause : FileError)
  | closed
  deriving DecidableEq

namespace OutputError

/-- The reason in words. -/
def message : OutputError → Bytes
  | uncreated cause => bytes "creating output: " ++ cause.message
  | unreplaced cause => bytes "replacing output: " ++ cause.message
  | closed => bytes "file already closed"

end OutputError

/-- The bytes that the name of the pending file takes. -/
def Output.size (o : Output) : Nat := o.name.text.length + o.digits

namespace Tree

/-- The location of a pending file, if its path and its name are short enough and its directory is
there. -/
def pendingPlace (t : Tree) (o : Output) : Except FileFault Location :=
  if Path.longest < o.home.length + o.size then .error .tooLong
  else do
    let directory ← t.directoryAt o.home
    if Name.longest < o.size then throw .tooLong else return directory ++ [o.name]

/-- Whether a path leads to a directory. -/
def isDirectory (t : Tree) (path : Bytes) : Bool :=
  match t.locate path with
  | .ok here => t.get? here = some .directory
  | .error _ => false

/-- Adds data to a pending file. Where the file is no longer in the tree, the data is lost. -/
def append (t : Tree) (o : Output) (data : Bytes) : Tree :=
  match t.pendingPlace o with
  | .error _ => t
  | .ok place =>
    match t.get? place with
    | some (.file written mode) => t.put place (.file (written ++ data) mode)
    | _ => t

/-- Removes a pending file from the tree. -/
def discard (t : Tree) (o : Output) : Tree :=
  match t.pendingPlace o with
  | .error _ => t
  | .ok place => t.erase place

/-- Gives a pending file the path of its destination. A directory is never replaced. -/
def replace (t : Tree) (o : Output) : Except FileFault Tree := do
  if t.isDirectory o.path then
    let place ← t.pendingPlace o
    throw (if t.get? place = none then .absent else .occupied)
  else
    let place ← t.pendingPlace o
    let target ← t.placeFor o.path
    match t.get? place with
    | none => throw .absent
    | some entry =>
      if Path.endsInSlash o.path then throw .notDirectory
      else return (t.erase place).put target entry

/-- The permissions of the regular file at a path, if there is one. -/
def existingMode (t : Tree) (path : Bytes) : Except FileFault (Option UInt16) :=
  match t.locate path with
  | .ok here =>
    match t.get? here with
    | some (.file _ mode) => .ok (some mode)
    | _ => .ok none
  | .error .absent => .ok none
  | .error fault => .error fault

end Tree

namespace Output

/-- A new output for a path, whose pending file has the given number, written in `digits` digits. -/
def forPath (path : Bytes) (serial digits : Nat) : Output :=
  let stem := Path.join (Path.directory path) (Path.dot :: Path.baseName path)
  ⟨path, Path.upToSlash stem, ⟨Path.lastElement stem, some serial⟩, digits, false⟩

/-- The path of the pending file, as messages show it. -/
def pendingPath (o : Output) (tag : Bytes) : Bytes := o.home ++ o.name.text ++ tag

end Output

namespace Volume

/-- The permissions of a new file. -/
def newMode (v : Volume) : UInt16 := 0o666 &&& ~~~v.umask

/-- Creates an output for a path, where the number of the pending file has `digits` digits. -/
def create (v : Volume) (path : Bytes) (digits : Nat) : Except OutputError (Output × Volume) :=
  match v.tree.existingMode path with
  | .error fault => .error (.uncreated (.call .inspecting path fault))
  | .ok existing =>
    let o := Output.forPath path v.serial digits
    match v.tree.pendingPlace o with
    | .error fault => .error (.uncreated (.call .opening (o.pendingPath v.tag) fault))
    | .ok place =>
      let mode := existing.getD v.newMode
      .ok (o, { v with tree := v.tree.put place (.file [] mode), serial := v.serial + 1 })

/-- Writes data to an output. -/
def write (v : Volume) (o : Output) (data : Bytes) : Except OutputError Volume :=
  if o.closed then .error .closed else .ok { v with tree := v.tree.append o data }

/-- Closes an output without putting it in place. -/
def abort (v : Volume) (o : Output) : Output × Volume :=
  if o.closed then (o, v) else ({ o with closed := true }, { v with tree := v.tree.discard o })

/-- Closes an output and puts it in place. Where that fails, the pending file is removed. -/
def commit (v : Volume) (o : Output) : Output × Volume × Option OutputError :=
  if o.closed then (o, v, some .closed)
  else
    match v.tree.replace o with
    | .ok tree => ({ o with closed := true }, { v with tree }, none)
    | .error fault =>
      ({ o with closed := true }, { v with tree := v.tree.discard o },
        some (.unreplaced (.rename (o.pendingPath v.tag) o.path fault)))

end Volume

end Teeny
