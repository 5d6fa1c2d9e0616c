import Teeny.Proofs.Files.Numbers

/-!
# Paths after a file is replaced

Compiling a file that succeeds sets one entry of the tree, where no directory stands
(`exists_replaced`). Such a change takes no path away: whatever was led to before is led to still
(`follow_put`, `locate_put`). So every other file is read as before, and the destination is read as
what was put there.
-/

namespace Teeny

namespace Tree

variable {t : Tree} {place here l : Location} {es : List Bytes} {path data : Bytes}

/-! ## Paths -/

/-- A path leads where its elements lead. If it ends in a slash, that is a directory. -/
theorem locate_eq_ok_iff :
    t.locate path = .ok l ↔
      Locatable path ∧ path ≠ [] ∧ t.follow [] (Path.elements path) = .ok l ∧
        (Path.endsInSlash path = true → t.get? l = some .directory) := by
  unfold locate
  by_cases hzero : 0 ∈ path
  · rw [if_pos hzero]
    constructor
    · intro h
      cases h
    · intro h
      exact absurd hzero h.1.nonzero
  · by_cases hnil : path = []
    · simp [hnil]
    · by_cases hlong : Path.longest < path.length
      · rw [if_neg hzero, if_neg hnil, if_pos hlong]
        constructor
        · intro h
          cases h
        · intro h
          exact absurd h.1.length_le (Nat.not_le.2 hlong)
      · have hpath : Locatable path := ⟨hzero, Nat.not_lt.1 hlong⟩
        rw [if_neg hzero, if_neg hnil, if_neg hlong]
        cases hslash : Path.endsInSlash path with
        | true => simp [hpath, hnil, directoryAt_eq_ok_iff]
        | false => simp [hpath, hnil]

section
variable (hplace : place ≠ []) (hfree : t.get? place ≠ some .directory) (entry : Entry)
include hplace

theorem get?_put_ne_none (h : t.get? l ≠ none) : (t.put place entry).get? l ≠ none := by
  rw [get?_put t place l entry hplace]
  split
  next => simp
  next => exact h

theorem get?_put_self_ne_none : (t.put place entry).get? place ≠ none := by
  rw [get?_put t place place entry hplace, if_pos rfl]
  simp

include hfree

/-- Elements lead where they led before. -/
theorem follow_put (h : t.follow here es = .ok l) : (t.put place entry).follow here es = .ok l := by
  induction es generalizing here with
  | nil => exact h
  | cons e es ih =>
    obtain ⟨hdir, hcases⟩ := follow_cons_eq_ok_iff.1 h
    refine follow_cons_eq_ok_iff.2 ⟨get?_put_of_directory hplace hfree hdir, ?_⟩
    rcases hcases with ⟨he, hrest⟩ | ⟨he, hrest⟩ | ⟨hdot, hdots, hshort, hpresent, hrest⟩
    · exact Or.inl ⟨he, ih hrest⟩
    · exact Or.inr (Or.inl ⟨he, ih hrest⟩)
    · have hpresent' := get?_put_ne_none hplace entry hpresent
      exact Or.inr (Or.inr ⟨hdot, hdots, hshort, hpresent', ih hrest⟩)

/-- A path leads where it led before. -/
theorem locate_put (h : t.locate path = .ok l) : (t.put place entry).locate path = .ok l := by
  obtain ⟨hpath, hne, hfollow, hslash⟩ := locate_eq_ok_iff.1 h
  exact locate_eq_ok_iff.2 ⟨hpath, hne, follow_put hplace hfree entry hfollow,
    fun hends => get?_put_of_directory hplace hfree (hslash hends)⟩

end

/-! ## Reading -/

/-- A file is read where a path leads to one that its owner may read. -/
theorem read_eq_ok_iff :
    t.read path = .ok data ↔
      ∃ here mode, t.locate path = .ok here ∧ t.get? here = some (.file data mode) ∧
        isReadable mode = true := by
  unfold read
  cases hlocate : t.locate path with
  | error fault => simp
  | ok here =>
    cases hget : t.get? here with
    | none => simp [hget]
    | some entry =>
      cases entry with
      | directory => simp [hget]
      | file written mode =>
        cases hmode : isReadable mode with
        | false => simp [hget, hmode]
        | true =>
          simp only [hget, hmode, if_true, Except.ok.injEq]
          constructor
          · rintro rfl
            exact ⟨here, mode, rfl, hget, hmode⟩
          · rintro ⟨here', mode', rfl, hget', -⟩
            rw [hget] at hget'
            cases hget'
            rfl

section
variable (hplace : place ≠ []) (hfree : t.get? place ≠ some .directory)
include hplace hfree

/-- Other files are read as before. -/
theorem read_put_of_ne (entry : Entry) (h : t.read path = .ok data)
    (hne : t.locate path ≠ .ok place) : (t.put place entry).read path = .ok data := by
  obtain ⟨here, mode, hlocate, hget, hmode⟩ := read_eq_ok_iff.1 h
  refine read_eq_ok_iff.2 ⟨here, mode, locate_put hplace hfree entry hlocate, ?_, hmode⟩
  rw [get?_put t place here entry hplace, if_neg]
  · exact hget
  · rintro rfl
    exact hne hlocate

end

end Tree

namespace Volume

variable {v : Volume} {bound : Option Nat} {source target : Bytes} {digits : Nat}

/-! ## What compiling changes -/

/-- A file that is compiled with success is read and accepted, and its code replaces what stood at
one location: where the target leads, if anything is there, and never a directory. The target leads
there from then on. -/
theorem exists_replaced (hv : v.Fresh) (h : (v.compileFile bound source target digits).2 = none) :
    ∃ data code there, v.tree.read source = .ok data ∧ generate bound source data = .ok code ∧
      v.tree.placeFor target = .ok there ∧ Location.IsPlain there ∧ there ≠ [] ∧
      v.tree.get? there ≠ some .directory ∧
      v.tree.locate target =
        (if v.tree.get? there = none then .error .absent else .ok there) ∧
      (v.compileFile bound source target digits).1.tree =
        v.tree.put there (.file code.pieces.flatten (v.modeFor target)) ∧
      (v.compileFile bound source target digits).1.tree.locate target = .ok there := by
  have hok := (compileFile_eq_none_iff hv).1 h
  obtain ⟨data, hread, hcompile⟩ := hok.accepted
  obtain ⟨⟨o, w⟩, hcreate⟩ := hok.creatable
  obtain ⟨there, hthere⟩ := hok.replaceable.exists_placeFor
  obtain ⟨code, hcode⟩ : ∃ code, generate bound source data = .ok code := by
    rcases compile_none_cases bound source data with ⟨code, hcode, -⟩ | ⟨failure, -, hrefused⟩
    · exact ⟨code, hcode⟩
    · rw [hrefused] at hcompile
      cases hcompile
  obtain ⟨hpath, -, hmade⟩ := isMade_of_create hcreate
  obtain ⟨-, -, place, hplace, -⟩ := create_eq_ok_iff.1 hcreate
  obtain ⟨hplain, hne, hfree, hlocate, hlater⟩ := Tree.exists_destination hmade
    (hpath ▸ hok.replaceable.isDirectory) (hpath ▸ hok.replaceable.endsInSlash) hplace
    (hpath ▸ hthere)
  have hresult := compileFile_eq_placed hread hcreate hv hcode
  rw [Tree.placed, if_neg (by simp [hok.replaceable.isDirectory]), hthere] at hresult
  simp only [hok.replaceable.endsInSlash, Bool.false_eq_true, if_false] at hresult
  have htree := (Prod.mk.inj hresult).1
  refine ⟨data, code, there, hread, hcode, hthere, hplain, hne, hfree, hpath ▸ hlocate, htree, ?_⟩
  rw [htree, ← hpath]
  apply hlater
  · intro p _ hp
    exact Tree.get?_put_of_directory hne hfree hp
  · exact Tree.get?_put_self_ne_none hne _

end Volume

end Teeny
