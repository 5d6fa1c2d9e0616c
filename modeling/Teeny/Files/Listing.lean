import Teeny.Files.Output

/-!
# Listing a volume

A listing shows every entry of a tree with its path from the root, in the order of the paths, and
entries with the same path in the order of their data. Files have to be read for that: the first
one that may not be read makes the whole listing fail.
-/

namespace Teeny

/-- A line of a listing. -/
structure Listed where
  path : Bytes
  entry : Entry
  deriving DecidableEq

namespace Name

/-- The name as messages and listings show it. -/
def shown (tag : Bytes) (n : Name) : Bytes :=
  match n.serial with
  | none => n.text
  | some _ => n.text ++ tag

end Name

namespace Entry

/-- The data of an entry; a directory has none. -/
def data : Entry → Bytes
  | directory => []
  | file data _ => data

/-- Whether a listing can show an entry. -/
def isReadable : Entry → Bool
  | directory => true
  | file _ mode => Tree.isReadable mode

end Entry

namespace Listed

/-- The order of a listing. -/
def le (a b : Listed) : Bool :=
  if a.path = b.path then a.entry.data ≤ b.entry.data else a.path ≤ b.path

end Listed

namespace Volume

/-- The entries directory by directory, each with the names that lead to it. -/
def walk (v : Volume) : List (List Bytes × Entry) :=
  (v.tree.entries.map fun e => (e.1.map (Name.shown v.tag), e.2)).mergeSort fun a b => a.1 ≤ b.1

/-- All entries of a volume. -/
def list (v : Volume) : Except FileError (List Listed) :=
  let lines := v.walk.map fun e => Listed.mk ([Path.slash].intercalate e.1) e.2
  match lines.find? fun l => !l.entry.isReadable with
  | some l => .error (.call .opening l.path .denied)
  | none => .ok (lines.mergeSort Listed.le)

end Volume

end Teeny
