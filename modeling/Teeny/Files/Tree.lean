import Teeny.Path

/-!
# File trees

A tree holds files with their data and permissions, and directories. Every entry has a location,
the names on the way from the root; the root itself is a directory and has no entry. Paths are
followed from the root: a path may pass through directories only, a dot stays and two dots go up,
and nothing lies above the root.

A name is either given by a path or belongs to a file that is still being written. The latter
carries a number of its own, so that no path reaches such a file and no two of them meet.
-/

namespace Teeny

/-- Why an operation on files fails. -/
inductive FileFault where
  | absent
  | occupied
  | notDirectory
  | isDirectory
  | denied
  | invalid
  | tooLong
  deriving DecidableEq

namespace FileFault

/-- The reason in words. -/
def message : FileFault → Bytes
  | absent => bytes "no such file or directory"
  | occupied => bytes "file exists"
  | notDirectory => bytes "not a directory"
  | isDirectory => bytes "is a directory"
  | denied => bytes "permission denied"
  | invalid => bytes "invalid argument"
  | tooLong => bytes "file name too long"

end FileFault

/-- The operations on one path that can fail. -/
inductive FileCall where
  | opening
  | reading
  | inspecting
  | making
  deriving DecidableEq

namespace FileCall

/-- The operation in words. -/
def title : FileCall → Bytes
  | opening => bytes "open"
  | reading => bytes "read"
  | inspecting => bytes "lstat"
  | making => bytes "mkdir"

end FileCall

/-- A failed operation. -/
inductive FileError where
  /-- An operation on one path. -/
  | call (operation : FileCall) (path : Bytes) (fault : FileFault)
  /-- Giving a file another path. -/
  | rename (source target : Bytes) (fault : FileFault)
  deriving DecidableEq

namespace FileError

/-- Why the operation failed. -/
def fault : FileError → FileFault
  | call _ _ fault => fault
  | rename _ _ fault => fault

/-- The failure in words. -/
def message : FileError → Bytes
  | call operation path fault => operation.title ++ bytes " " ++ path ++ bytes ": " ++ fault.message
  | rename source target fault =>
    bytes "rename " ++ source ++ bytes " " ++ target ++ bytes ": " ++ fault.message

end FileError

/-- A name in a directory. -/
structure Name where
  text : Bytes
  /-- The number of a file that is still being written. -/
  serial : Option Nat
  deriving DecidableEq

namespace Name

/-- The most bytes that a name takes. -/
def longest : Nat := 255

/-- Whether the text of a name takes more bytes than a directory holds. -/
def isTooLong (n : Name) : Bool := longest < n.text.length

end Name

/-- The names on the way from the root. -/
abbrev Location := List Name

/-- What stands at a location. -/
inductive Entry where
  | directory
  | file (data : Bytes) (mode : UInt16)
  deriving DecidableEq

/-- A tree of files. -/
structure Tree where
  entries : List (Location × Entry)
  deriving DecidableEq

namespace Tree

/-- The tree that holds nothing. -/
def empty : Tree := ⟨[]⟩

/-- The entry at a location below the root. -/
def findEntry (place : Location) : List (Location × Entry) → Option Entry
  | [] => none
  | (l, e) :: rest => if l = place then some e else findEntry place rest

/-- What stands at a location. -/
def get? (t : Tree) (place : Location) : Option Entry :=
  if place = [] then some .directory else findEntry place t.entries

/-- Sets one entry, in its place if it is there and behind all others if not. -/
def putEntry (place : Location) (entry : Entry) : List (Location × Entry) → List (Location × Entry)
  | [] => [(place, entry)]
  | (l, e) :: rest =>
    if l = place then (l, entry) :: rest else (l, e) :: putEntry place entry rest

/-- The tree with one entry set. -/
def put (t : Tree) (place : Location) (entry : Entry) : Tree := ⟨putEntry place entry t.entries⟩

/-- The tree without one entry. -/
def erase (t : Tree) (place : Location) : Tree := ⟨t.entries.filter fun e => e.1 ≠ place⟩

/-- The tree without an entry and all that lies inside it. -/
def eraseAll (t : Tree) (place : Location) : Tree :=
  ⟨t.entries.filter fun e => !place.isPrefixOf e.1⟩

/-- Follows the elements of a path from a location. -/
def follow (t : Tree) : Location → List Bytes → Except FileFault Location
  | here, [] => .ok here
  | here, element :: elements =>
    if t.get? here ≠ some .directory then .error .notDirectory
    else if element = bytes "." then t.follow here elements
    else if element = bytes ".." then t.follow here.dropLast elements
    else
      let name : Name := ⟨element, none⟩
      if name.isTooLong then .error .tooLong
      else if t.get? (here ++ [name]) = none then .error .absent
      else t.follow (here ++ [name]) elements

/-- The directory that a path leads to. -/
def directoryAt (t : Tree) (path : Bytes) : Except FileFault Location := do
  let here ← t.follow [] (Path.elements path)
  if t.get? here = some .directory then return here else throw .notDirectory

/-- The location that a path leads to. No byte of a path is zero; the empty path leads nowhere, and
a path that ends in a slash leads to a directory only. -/
def locate (t : Tree) (path : Bytes) : Except FileFault Location :=
  if 0 ∈ path then .error .invalid
  else if path = [] then .error .absent
  else if Path.longest < path.length then .error .tooLong
  else if Path.endsInSlash path then t.directoryAt path
  else t.follow [] (Path.elements path)

/-- The location that a path would have, whether or not something stands there: its last element in
the directory that the others lead to. -/
def placeFor (t : Tree) (path : Bytes) : Except FileFault Location :=
  match (Path.elements path).reverse with
  | [] => .error (if path = [] then .absent else .occupied)
  | last :: above => do
    let here ← t.follow [] above.reverse
    if t.get? here = some .directory then return here ++ [⟨last, none⟩] else throw .notDirectory

/-- Whether the owner of a file with these permissions may read it. -/
def isReadable (mode : UInt16) : Bool := mode &&& 0o400 ≠ 0

/-- The data of the file at a path. -/
def read (t : Tree) (path : Bytes) : Except FileError Bytes :=
  match t.locate path with
  | .error fault => .error (.call .opening path fault)
  | .ok here =>
    match t.get? here with
    | some (.file data mode) =>
      if isReadable mode then .ok data else .error (.call .opening path .denied)
    | _ => .error (.call .reading path .isDirectory)

/-- Removes what the elements of a path lead to, with all inside it, but never the root; nothing, if
they lead nowhere. -/
def remove (t : Tree) (path : Bytes) : Tree :=
  match t.follow [] (Path.elements path) with
  | .ok [] | .error _ => t
  | .ok here => t.eraseAll here

/-- Makes the directories that are missing on the way along a path. `passed` is the path so far. -/
def makeAlong (t : Tree) (here : Location) (passed : Bytes) :
    List Bytes → Except FileError Tree
  | [] => .ok t
  | element :: elements =>
    let passed := if passed = [] then element else passed ++ Path.slash :: element
    if element = bytes "." then t.makeAlong here passed elements
    else if element = bytes ".." then t.makeAlong here.dropLast passed elements
    else
      let there := here ++ [⟨element, none⟩]
      match t.get? there with
      | some .directory => t.makeAlong there passed elements
      | some (.file ..) => .error (.call .making passed .notDirectory)
      | none =>
        if 0 ∈ element then .error (.call .making passed .invalid)
        else if Name.isTooLong ⟨element, none⟩ || Path.longest < passed.length then
          .error (.call .making passed .tooLong)
        else (t.put there .directory).makeAlong there passed elements

/-- Makes a directory and those it lies in. -/
def makeDirectory (t : Tree) (path : Bytes) : Except FileError Tree :=
  t.makeAlong [] [] (Path.elements path)

/-- Writes a file, making the directories it lies in. -/
def writeFile (t : Tree) (path data : Bytes) (mode : UInt16) : Except FileError Tree := do
  let t ← t.makeDirectory (Path.directory path)
  match t.placeFor path with
  | .error fault => throw (.call .opening path fault)
  | .ok here =>
    if 0 ∈ path then throw (.call .opening path .invalid)
    else if Path.longest < path.length || here.any (·.isTooLong) then
      throw (.call .opening path .tooLong)
    else if t.get? here = some .directory then throw (.call .opening path .isDirectory)
    else return t.put here (.file data (mode &&& 0o777))

theorem get?_nil (t : Tree) : t.get? [] = some .directory := rfl

theorem findEntry_putEntry (place l : Location) (entry : Entry)
    (es : List (Location × Entry)) :
    findEntry l (putEntry place entry es) =
      if l = place then some entry else findEntry l es := by
  induction es with
  | nil => by_cases h : place = l <;> simp [putEntry, findEntry, h, eq_comm]
  | cons e es ih =>
    obtain ⟨k, v⟩ := e
    by_cases hk : k = place
    · subst hk
      by_cases hl : l = k
      · simp [putEntry, findEntry, hl]
      · simp [putEntry, findEntry, hl, Ne.symm hl]
    · by_cases hl : k = l
      · subst hl
        simp [putEntry, findEntry, hk]
      · simp [putEntry, findEntry, hk, hl, ih]

/-- What stands where after an entry is set. -/
theorem get?_put (t : Tree) (place l : Location) (entry : Entry) (h : place ≠ []) :
    (t.put place entry).get? l = if l = place then some entry else t.get? l := by
  unfold get? put
  by_cases hl : l = []
  · subst hl
    simp [Ne.symm h]
  · simp [hl, findEntry_putEntry]

theorem findEntry_filter_ne (place l : Location) (es : List (Location × Entry)) :
    findEntry l (es.filter fun e => e.1 ≠ place) =
      if l = place then none else findEntry l es := by
  induction es with
  | nil => simp [findEntry]
  | cons e es ih =>
    obtain ⟨k, v⟩ := e
    by_cases hk : k = place
    · subst hk
      rw [List.filter_cons_of_neg (by simp), ih]
      by_cases hl : l = k
      · simp [hl]
      · simp [findEntry, Ne.symm hl]
    · rw [List.filter_cons_of_pos (by simpa using hk)]
      by_cases hl : k = l
      · subst hl
        simp [findEntry, hk]
      · simp only [findEntry, hl, if_false, ih]

/-- What stands where after an entry is taken away. -/
theorem get?_erase (t : Tree) (place l : Location) (h : place ≠ []) :
    (t.erase place).get? l = if l = place then none else t.get? l := by
  unfold get? erase
  by_cases hl : l = []
  · subst hl
    simp [Ne.symm h]
  · simp only [hl, if_false]
    exact findEntry_filter_ne place l t.entries

end Tree

end Teeny
