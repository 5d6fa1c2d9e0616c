import Teeny.Command.Run

/-!
# The command line

The command runs on a copy of the files that its arguments name, and what it changed is written
back: the destination, in one step and only after a success.
-/

namespace Teeny

/-- The bytes of a text as the system takes them. -/
def Bytes.toByteArray (b : Bytes) : ByteArray := ByteArray.mk b.toArray

/-- The text of a path. -/
def pathText (path : Bytes) : String := (String.fromUTF8? path.toByteArray).getD ""

/-- Copies what stands at a path into a tree. -/
def loadEntry (tree : Tree) (path : Bytes) : IO Tree := do
  let place := (← IO.currentDir) / pathText path
  let loaded ←
    if ← place.isDir then
      pure (tree.makeDirectory path)
    else if ← place.pathExists then
      let data ← IO.FS.readBinFile place
      pure (tree.writeFile path data.toList 0o644)
    else
      pure (.ok tree)
  match loaded with
  | .ok tree => pure tree
  | .error _ => pure tree

/-- Copies what stands along some paths into a tree. -/
def load (paths : List Bytes) : IO Tree :=
  (paths.flatMap Path.ancestors).foldlM loadEntry Tree.empty

/-- Writes a file back. -/
def store (tree : Tree) (path : Bytes) : IO Unit := do
  match tree.read path with
  | .error _ => pure ()
  | .ok data =>
    let number := Bytes.decimal (← IO.monoNanosNow)
    let output := Output.forPath path 0 number.length
    let pending := pathText (output.pendingPath number)
    IO.FS.writeBinFile pending data.toByteArray
    IO.FS.rename pending (pathText path)

end Teeny

open Teeny

def main (arguments : List String) : IO UInt32 := do
  let start ← IO.monoMsNow
  let arguments := arguments.map bytes
  let paths := Command.touched arguments
  let tree ← load paths
  let elapsed := Bytes.decimal ((← IO.monoMsNow) - start) ++ bytes "ms"
  let digits := (Bytes.decimal (← IO.monoNanosNow)).length
  let host : Command.Host := ⟨bytes "unknown", elapsed, false, digits⟩
  let result := Command.run host arguments ⟨tree, 0o022, 0, []⟩
  if result.volume.tree ≠ tree then
    paths.getLast?.forM (store result.volume.tree)
  (← IO.getStdout).write result.stdout.toByteArray
  (← IO.getStderr).write result.stderr.toByteArray
  return result.exit.toUInt32
