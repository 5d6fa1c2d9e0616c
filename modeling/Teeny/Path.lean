import Teeny.Text.Bytes

/-!
# Paths

A path is a text whose elements are divided by slashes. These operations look at the text only and
never at the files: the part before the last slash and the part behind it, the shortest path that
means the same, and the name of the file that the code of a source goes to.
-/

namespace Teeny.Path

/-- The byte between the elements of a path. -/
def slash : UInt8 := 47

/-- The byte before the extension of a name. -/
def dot : UInt8 := 46

/-- The most bytes that a path to a file may have. -/
def longest : Nat := 4095

/-- The path up to and including its last slash. -/
def upToSlash (p : Bytes) : Bytes := (p.reverse.dropWhile (· ≠ slash)).reverse

/-- The last element of a path, which is empty behind a final slash. -/
def lastElement (p : Bytes) : Bytes := (p.reverse.takeWhile (· ≠ slash)).reverse

theorem upToSlash_append_lastElement (p : Bytes) : upToSlash p ++ lastElement p = p := by
  unfold upToSlash lastElement
  rw [← List.reverse_append, List.takeWhile_append_dropWhile, List.reverse_reverse]

/-- A path cut at its slashes. -/
def split : Bytes → List Bytes
  | [] => [[]]
  | b :: rest =>
    if b = slash then [] :: split rest
    else
      match split rest with
      | [] => [[b]]
      | element :: elements => (b :: element) :: elements

/-- The elements of a path, leaving out the empty ones. -/
def elements (p : Bytes) : List Bytes := (split p).filter (· ≠ [])

/-- Whether a path starts at the root. -/
def isRooted (p : Bytes) : Bool := p.head? = some slash

/-- Whether a path names a directory by a final slash. -/
def endsInSlash (p : Bytes) : Bool := p.getLast? = some slash

/-- One more element behind a cleaned path, which is held last element first. A dot adds nothing,
and two dots take the last element back where there is one to take. -/
def cleanStep (rooted : Bool) (above : List Bytes) (element : Bytes) : List Bytes :=
  if element = bytes "." then above
  else if element = bytes ".." then
    match above with
    | [] => if rooted then [] else [element]
    | last :: outer => if last = bytes ".." then element :: above else outer
  else element :: above

/-- The shortest path with the same meaning, as far as the text alone tells. -/
def clean (p : Bytes) : Bytes :=
  let kept := ((elements p).foldl (cleanStep (isRooted p)) []).reverse
  let joined := [slash].intercalate kept
  if isRooted p then slash :: joined else if kept = [] then bytes "." else joined

/-- The directory of a path. -/
def directory (p : Bytes) : Bytes := clean (upToSlash p)

/-- The name of a path: its last element that is not empty, a dot for the empty path, and a slash
for the root. -/
def baseName (p : Bytes) : Bytes :=
  if p = [] then bytes "."
  else
    match (elements p).getLast? with
    | some element => element
    | none => [slash]

/-- A path inside a directory. -/
def join (directory name : Bytes) : Bytes := clean (directory ++ slash :: name)

/-- The paths on the way along a path, ending with the path itself. -/
def ancestors (p : Bytes) : List Bytes :=
  let roots := if isRooted p then [slash] else []
  (List.range (elements p).length).map fun n =>
    roots ++ [slash].intercalate ((elements p).take (n + 1))

/-- Looks for the start of an extension, going back over the bytes of a path, which come last first.
`passed` is what lies behind them. -/
def extensionFrom (passed : Bytes) : Bytes → Bytes
  | [] => []
  | b :: before =>
    if b = slash then []
    else if b = dot then b :: passed
    else extensionFrom (b :: passed) before

/-- The extension of a path: what its last element has from its last dot on, and nothing if there is
no dot in it. -/
def extension (p : Bytes) : Bytes := extensionFrom [] p.reverse

/-- A text without an ending, if it has this ending. -/
def trimEnding (p ending : Bytes) : Bytes :=
  if ending.isSuffixOf p then p.take (p.length - ending.length) else p

/-- Where the code of a source goes: the path of the source with the extension of C for its own. -/
def outputName (p : Bytes) : Bytes := trimEnding p (extension p) ++ bytes ".c"

end Teeny.Path
