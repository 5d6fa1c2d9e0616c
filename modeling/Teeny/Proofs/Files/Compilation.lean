import Teeny.Files.Compile
import Teeny.Proofs.Files.Outputs

/-!
# Compiling a file, all or nothing

However compiling a file ends, its pending file is gone. The name of that file has a number that no
name in the tree has, so taking the file away again gives back the tree as it was (`erase_put`), and
what is left is the destination, if it came to that (`compileFile_cases`).
-/

namespace Teeny

namespace Tree

variable {t t' : Tree} {o : Output} {place : Location} {entry : Entry}

/-! ## Trees with one more file -/

theorem put_put (t : Tree) (place : Location) (entry entry' : Entry) :
    (t.put place entry).put place entry' = t.put place entry' := by
  have hentries : ∀ es, putEntry place entry' (putEntry place entry es) =
      putEntry place entry' es := by
    intro es
    induction es with
    | nil => simp [putEntry]
    | cons e es ih => by_cases he : e.1 = place <;> simp [putEntry, he, ih]
  exact congrArg Tree.mk (hentries t.entries)

/-- A new file is taken away again without a trace. -/
theorem erase_put (h : ∀ e ∈ t.entries, e.1 ≠ place) (entry : Entry) :
    (t.put place entry).erase place = t := by
  have hentries : ∀ es : List (Location × Entry), (∀ e ∈ es, e.1 ≠ place) →
      (putEntry place entry es).filter (fun e => e.1 ≠ place) = es := by
    intro es hes
    induction es with
    | nil => simp [putEntry]
    | cons e es ih =>
      obtain ⟨he, hes⟩ := List.forall_mem_cons.1 hes
      rw [putEntry, if_neg he, List.filter_cons_of_pos (by simpa using he), ih hes]
  exact congrArg Tree.mk (hentries t.entries h)

section
variable {serial : Nat} (hplace : t.pendingPlace o = .ok place)
  (hserial : o.name.serial = some serial)
include hplace hserial

theorem agrees_pending (entry : Entry) : t.Agrees (t.put place entry) :=
  agrees_put (ne_nil_of_pendingPlace hplace) (not_isPlain_of_pendingPlace hplace hserial) entry

theorem pendingPlace_put (entry : Entry) : (t.put place entry).pendingPlace o = .ok place := by
  rw [← (agrees_pending hplace hserial entry).pendingPlace_eq]
  exact hplace

theorem append_put (written data : Bytes) (mode : UInt16) :
    (t.put place (.file written mode)).append o data =
      t.put place (.file (written ++ data) mode) := by
  have hget : (t.put place (.file written mode)).get? place = some (.file written mode) := by
    rw [get?_put t place place _ (ne_nil_of_pendingPlace hplace), if_pos rfl]
  unfold append
  rw [pendingPlace_put hplace hserial]
  dsimp only
  rw [hget]
  exact put_put t place _ _

variable (hfresh : ∀ e ∈ t.entries, e.1 ≠ place)
include hfresh

theorem discard_put (entry : Entry) : (t.put place entry).discard o = t := by
  unfold discard
  rw [pendingPlace_put hplace hserial]
  exact erase_put hfresh entry

/-- Putting the only pending file in place sets the destination and nothing else. -/
theorem replace_put_eq_ok_iff (entry : Entry) :
    (t.put place entry).replace o = .ok t' ↔
      t.Replaceable o.path ∧ ∃ target, t.placeFor o.path = .ok target ∧
        t' = t.put target entry := by
  have hagrees := agrees_pending hplace hserial entry
  have hget : (t.put place entry).get? place = some entry := by
    rw [get?_put t place place _ (ne_nil_of_pendingPlace hplace), if_pos rfl]
  rw [replace_eq_ok_iff, ← hagrees.isDirectory_eq, ← hagrees.placeFor_eq]
  constructor
  · rintro ⟨hdir, hslash, place', target, entry', hplace', htarget, hentry, rfl⟩
    rw [pendingPlace_put hplace hserial] at hplace'
    cases hplace'
    rw [hget] at hentry
    cases hentry
    rw [erase_put hfresh]
    exact ⟨⟨hdir, hslash, target, htarget⟩, target, htarget, rfl⟩
  · rintro ⟨hreplaceable, target, htarget, rfl⟩
    refine ⟨hreplaceable.isDirectory, hreplaceable.endsInSlash, place, target, entry,
      pendingPlace_put hplace hserial entry, htarget, hget, ?_⟩
    rw [erase_put hfresh]

end

end Tree

/-! ## Compiling -/

/-- What a receiver without a limit gets. -/
theorem compile_none_cases (bound : Option Nat) (file source : Bytes) :
    (∃ code, generate bound file source = .ok code ∧
        compile bound file source none = (code.pieces.flatten, none)) ∨
      ∃ failure, generate bound file source = .error failure ∧
        compile bound file source none = ([], some (.refused failure)) := by
  cases hcode : generate bound file source with
  | error failure =>
    refine Or.inr ⟨failure, rfl, ?_⟩
    rw [compile, hcode]
  | ok code =>
    have hopen : code.finalized = false := by
      unfold generate at hcode
      dsimp only at hcode
      split at hcode
      next =>
        cases hcode
        rfl
      next => cases hcode
    refine Or.inl ⟨code, rfl, ?_⟩
    rw [compile, hcode]
    simp [CodeBuffer.finalize, hopen, Delivery.offer_none]

namespace Volume

variable {v v' : Volume} {o : Output} {place : Location}

/-- Whether no name in the tree has the number of a pending file that is still to come. -/
def Fresh (v : Volume) : Prop :=
  ∀ e ∈ v.tree.entries, ∀ n ∈ e.1, ∀ serial ∈ n.serial, serial < v.serial

theorem Fresh.ne_place (hv : v.Fresh) (hplace : v.tree.pendingPlace o = .ok place)
    (hserial : o.name.serial = some v.serial) : ∀ e ∈ v.tree.entries, e.1 ≠ place := by
  obtain ⟨-, -, directory, -, rfl⟩ := Tree.pendingPlace_eq_ok_iff.1 hplace
  intro e he heq
  have hname : o.name ∈ e.1 := by
    rw [heq]
    simp
  exact Nat.lt_irrefl _ (hv e he o.name hname v.serial hserial)

/-- Pieces that are written to a pending file are added to it. -/
theorem writeAll_of_pending {t : Tree} {serial : Nat} (hplace : t.pendingPlace o = .ok place)
    (hserial : o.name.serial = some serial) (hopen : o.closed = false) {written : Bytes}
    {mode : UInt16} (hv : v.tree = t.put place (.file written mode)) (pieces : List Bytes) :
    ∃ w, v.writeAll o pieces = .ok w ∧
      w.tree = t.put place (.file (written ++ pieces.flatten) mode) := by
  induction pieces generalizing v written with
  | nil =>
    refine ⟨v, rfl, ?_⟩
    rw [hv, List.flatten_nil, List.append_nil]
  | cons piece pieces ih =>
    have hpiece : v.write o piece = .ok { v with tree := v.tree.append o piece } := by
      rw [write, if_neg (by simp [hopen])]
    have happend : v.tree.append o piece = t.put place (.file (written ++ piece) mode) := by
      rw [hv]
      exact Tree.append_put hplace hserial written piece mode
    obtain ⟨w, hw, htree⟩ := @ih { v with tree := v.tree.append o piece } _ happend
    refine ⟨w, ?_, ?_⟩
    · rw [writeAll, hpiece]
      exact hw
    · rw [htree, List.flatten_cons, List.append_assoc]

/-- Whether a file can be compiled into another. -/
structure Compilable (v : Volume) (bound : Option Nat) (source target : Bytes) (digits : Nat) :
    Prop where
  accepted : ∃ data, v.tree.read source = .ok data ∧ (compile bound source data none).2 = none
  creatable : ∃ created, v.create target digits = .ok created
  replaceable : v.tree.Replaceable target

section
variable {bound : Option Nat} {source target data : Bytes} {digits : Nat} {w : Volume}
  (hread : v.tree.read source = .ok data) (hcreate : v.create target digits = .ok (o, w))
  (hv : v.Fresh)
include hread hcreate hv

/-- A refused program leaves the tree as it was. -/
theorem compileFile_of_refused {failure : Failure}
    (hcode : generate bound source data = .error failure) :
    (v.compileFile bound source target digits).2 = some (.refused failure) ∧
      (v.compileFile bound source target digits).1.tree = v.tree := by
  obtain ⟨-, hopen, hmade⟩ := isMade_of_create hcreate
  obtain ⟨-, -, place, hplace, rfl⟩ := create_eq_ok_iff.1 hcreate
  unfold compileFile
  simp only [hread, hcreate, hcode, abort, hopen, Bool.false_eq_true, if_false, true_and]
  exact Tree.discard_put hplace hmade.serial_eq (hv.ne_place hplace hmade.serial_eq) _

/-- Where a program is accepted, its code is written to the pending file, and putting that in place
decides the rest. -/
theorem exists_written {code : CodeBuffer} (hcode : generate bound source data = .ok code) :
    ∃ x place, v.tree.pendingPlace o = .ok place ∧ (∀ e ∈ v.tree.entries, e.1 ≠ place) ∧
      w.writeAll o code.pieces = .ok x ∧
      x.tree = v.tree.put place (.file code.pieces.flatten (v.modeFor target)) ∧
      v.compileFile bound source target digits =
        ((x.commit o).2.1, (x.commit o).2.2.map .output) := by
  obtain ⟨-, hopen, hmade⟩ := isMade_of_create hcreate
  obtain ⟨-, -, place, hplace, hw⟩ := create_eq_ok_iff.1 hcreate
  obtain ⟨x, hx, htree⟩ := writeAll_of_pending hplace hmade.serial_eq hopen
    (show w.tree = _ by rw [hw]) code.pieces
  refine ⟨x, place, hplace, hv.ne_place hplace hmade.serial_eq, hx, htree, ?_⟩
  unfold compileFile
  simp only [hread, hcreate, hcode, hx]

/-- Code is put at the destination, or the tree is left as it was. -/
theorem compileFile_of_code {code : CodeBuffer} (hcode : generate bound source data = .ok code) :
    (v.tree.Replaceable target ∧ (v.compileFile bound source target digits).2 = none ∧
        ∃ there, (v.compileFile bound source target digits).1.tree.locate target = .ok there ∧
          (v.compileFile bound source target digits).1.tree =
            v.tree.put there (.file code.pieces.flatten (v.modeFor target))) ∨
      ¬ v.tree.Replaceable target ∧ (v.compileFile bound source target digits).2 ≠ none ∧
        (v.compileFile bound source target digits).1.tree = v.tree := by
  obtain ⟨hpath, hopen, hmade⟩ := isMade_of_create hcreate
  obtain ⟨x, place, hplace, hfresh, -, htree, hresult⟩ := exists_written hread hcreate hv hcode
  rw [hresult]
  rcases x.commit_cases hopen with ⟨t, ht, hcommit⟩ | ⟨fault, ht, hcommit⟩
  · rw [htree, Tree.replace_put_eq_ok_iff hplace hmade.serial_eq hfresh _] at ht
    obtain ⟨hreplaceable, there, hthere, rfl⟩ := ht
    obtain ⟨-, hne, hfree, -, hlocate⟩ := Tree.exists_destination hmade hreplaceable.isDirectory
      hreplaceable.endsInSlash hplace hthere
    rw [hpath] at hreplaceable hlocate
    rw [hcommit]
    refine Or.inl ⟨hreplaceable, rfl, there, ?_, rfl⟩
    apply hlocate
    · intro p _ hp
      exact Tree.get?_put_of_directory hne hfree hp
    · rw [Tree.get?_put _ _ _ _ hne, if_pos rfl]
      simp
  · rw [hcommit]
    refine Or.inr ⟨?_, by simp, ?_⟩
    · intro hreplaceable
      obtain ⟨there, hthere⟩ := hreplaceable.exists_placeFor
      rw [← hpath] at hreplaceable hthere
      have hok : ∃ t, x.tree.replace o = .ok t := by
        rw [htree]
        exact ⟨_, (Tree.replace_put_eq_ok_iff hplace hmade.serial_eq hfresh _).2
          ⟨hreplaceable, there, hthere, rfl⟩⟩
      rw [ht] at hok
      obtain ⟨t, h⟩ := hok
      cases h
    · show x.tree.discard o = v.tree
      rw [htree]
      exact Tree.discard_put hplace hmade.serial_eq hfresh _

end

/-- How compiling a file ends: with the tree as it was, or with the code at the destination. -/
theorem compileFile_cases (hv : v.Fresh) (bound : Option Nat) (source target : Bytes)
    (digits : Nat) :
    (¬ v.Compilable bound source target digits ∧
        (v.compileFile bound source target digits).2 ≠ none ∧
        (v.compileFile bound source target digits).1.tree = v.tree) ∨
      v.Compilable bound source target digits ∧
        (v.compileFile bound source target digits).2 = none ∧
        ∃ data code there, v.tree.read source = .ok data ∧
          compile bound source data none = (code, none) ∧
          (v.compileFile bound source target digits).1.tree.locate target = .ok there ∧
          (v.compileFile bound source target digits).1.tree =
            v.tree.put there (.file code (v.modeFor target)) := by
  cases hread : v.tree.read source with
  | error e =>
    left
    refine ⟨fun h => ?_, by simp [compileFile, hread], by simp [compileFile, hread]⟩
    obtain ⟨data, h, -⟩ := h.accepted
    rw [hread] at h
    cases h
  | ok data =>
    cases hcreate : v.create target digits with
    | error e =>
      left
      refine ⟨fun h => ?_, by simp [compileFile, hread, hcreate],
        by simp [compileFile, hread, hcreate]⟩
      obtain ⟨created, h⟩ := h.creatable
      rw [hcreate] at h
      cases h
    | ok created =>
      obtain ⟨o, w⟩ := created
      rcases compile_none_cases bound source data with ⟨code, hcode, hcompile⟩ |
        ⟨failure, hcode, hcompile⟩
      · rcases compileFile_of_code hread hcreate hv hcode with
          ⟨hreplaceable, hnone, there, hlocate, htree⟩ | ⟨hnot, herror, htree⟩
        · right
          refine ⟨⟨⟨data, hread, ?_⟩, ⟨_, hcreate⟩, hreplaceable⟩, hnone, data, _, there, rfl,
            hcompile, hlocate, htree⟩
          rw [hcompile]
        · exact Or.inl ⟨fun h => hnot h.replaceable, herror, htree⟩
      · obtain ⟨herror, htree⟩ := compileFile_of_refused hread hcreate hv hcode
        refine Or.inl ⟨fun h => ?_, by simp [herror], htree⟩
        obtain ⟨data', hread', h⟩ := h.accepted
        rw [hread] at hread'
        cases hread'
        rw [hcompile] at h
        cases h

/-- Compiling a file succeeds exactly if the file can be compiled. -/
theorem compileFile_eq_none_iff (hv : v.Fresh) {bound : Option Nat} {source target : Bytes}
    {digits : Nat} :
    (v.compileFile bound source target digits).2 = none ↔
      v.Compilable bound source target digits := by
  rcases compileFile_cases hv bound source target digits with ⟨hnot, herror, -⟩ | ⟨hok, hnone, -⟩
  · exact iff_of_false herror hnot
  · exact iff_of_true hnone hok

end Volume

end Teeny
