import Teeny.Proofs.Files.Places

/-!
# What outputs do to a tree

One statement for each operation on an output. Creating one and writing to it touch the pending file
alone, and so does giving it up. Putting it in place touches the pending file and one more location,
which is no directory and is where the path of the output leads afterwards
(`exists_destination`).
-/

namespace Teeny

namespace Tree

variable {t t' : Tree} {l : Location} {path : Bytes}

/-! ## Destinations -/

/-- The location for a path is its last element in the directory that the others lead to. -/
theorem placeFor_eq_ok_iff :
    t.placeFor path = .ok l ↔
      ∃ above last here, Path.elements path = above ++ [last] ∧ t.follow [] above = .ok here ∧
        t.get? here = some .directory ∧ l = here ++ [⟨last, none⟩] := by
  have hsplit : ∀ last above, (Path.elements path).reverse = last :: above →
      Path.elements path = above.reverse ++ [last] := by
    intro last above h
    rw [← List.reverse_reverse (Path.elements path), h, List.reverse_cons]
  constructor
  · intro h
    unfold placeFor at h
    split at h
    next => cases h
    next last above helements =>
      cases hfollow : t.follow [] above.reverse with
      | error fault =>
        rw [hfollow] at h
        cases h
      | ok here =>
        rw [hfollow] at h
        by_cases hdir : t.get? here = some .directory
        · simp only [bind, Except.bind, hdir, if_true, pure, Except.pure] at h
          exact ⟨_, last, here, hsplit _ _ helements, hfollow, hdir, (Except.ok.inj h).symm⟩
        · simp only [bind, Except.bind, hdir, if_false] at h
          cases h
  · intro h
    obtain ⟨above, last, here, helements, hfollow, hdir, rfl⟩ := h
    have hreverse : (Path.elements path).reverse = last :: above.reverse := by simp [helements]
    unfold placeFor
    rw [hreverse]
    simp only [List.reverse_reverse, hfollow, bind, Except.bind, hdir, if_true]
    rfl

/-- What a path must be to lead to a file. -/
structure Locatable (path : Bytes) : Prop where
  nonzero : 0 ∉ path
  length_le : path.length ≤ Path.longest

theorem locatable_of_existingMode {mode : Option UInt16} (h : t.existingMode path = .ok mode) :
    Locatable path := by
  unfold existingMode locate at h
  by_cases hzero : 0 ∈ path
  · rw [if_pos hzero] at h
    cases h
  · refine ⟨hzero, Nat.not_lt.1 fun hlong => ?_⟩
    have hne : path ≠ [] := by
      rintro rfl
      cases hlong
    rw [if_neg hzero, if_neg hne, if_pos hlong] at h
    cases h

theorem locate_eq_follow {above : List Bytes} {last : Bytes} {here : Location}
    (hpath : Locatable path) (hslash : Path.endsInSlash path = false)
    (helements : Path.elements path = above ++ [last]) (hfollow : t.follow [] above = .ok here) :
    t.locate path = t.follow here [last] := by
  have hne : path ≠ [] := by
    rintro rfl
    simp [Path.elements, Path.split] at helements
  unfold locate
  rw [if_neg hpath.nonzero, if_neg hne, if_neg (Nat.not_lt.2 hpath.length_le),
    if_neg (by simp [hslash]), helements, follow_append hfollow]

/-- A path whose last element is a name leads to that name in the directory before it, if it is
there. -/
theorem locate_of_follow {above : List Bytes} {last : Bytes} {here : Location}
    (hpath : Locatable path) (hslash : Path.endsInSlash path = false)
    (helements : Path.elements path = above ++ [last]) (hdot : last ≠ bytes ".")
    (hdots : last ≠ bytes "..") (hshort : Name.isTooLong ⟨last, none⟩ = false)
    (hfollow : t.follow [] above = .ok here) (hdir : t.get? here = some .directory) :
    t.locate path =
      if t.get? (here ++ [⟨last, none⟩]) = none then .error .absent
      else .ok (here ++ [⟨last, none⟩]) := by
  rw [locate_eq_follow hpath hslash helements hfollow, follow, if_neg (not_not_intro hdir),
    if_neg hdot, if_neg hdots]
  simp only [hshort, Bool.false_eq_true, if_false, follow]

end Tree

/-! ## Outputs as they are created -/

/-- Whether an output is one that was created with a number, open or closed. -/
structure Output.IsMade (o : Output) (serial : Nat) : Prop where
  home_eq : o.home = (forPath o.path serial o.digits).home
  name_eq : o.name = (forPath o.path serial o.digits).name
  locatable : Tree.Locatable o.path

namespace Output.IsMade

variable {o : Output} {serial : Nat}

theorem close (h : o.IsMade serial) : IsMade { o with closed := true } serial :=
  ⟨h.home_eq, h.name_eq, h.locatable⟩

theorem serial_eq (h : o.IsMade serial) : o.name.serial = some serial := by
  rw [h.name_eq]
  rfl

theorem descends (h : o.IsMade serial) : Path.Descends (Path.elements o.home) := by
  rw [h.home_eq]
  exact descends_home o.path serial o.digits

/-- The name of the destination is shorter than that of the pending file. -/
theorem isTooLong_last {above : List Bytes} {last : Bytes} (h : o.IsMade serial)
    (helements : Path.elements o.path = above ++ [last]) (hdot : last ≠ bytes ".")
    (hshort : o.size ≤ Name.longest) : Name.isTooLong ⟨last, none⟩ = false := by
  have htext : o.name.text = Path.dot :: last := by
    rw [h.name_eq]
    exact text_name serial o.digits helements hdot
  rw [Output.size, htext, List.length_cons] at hshort
  rw [Name.isTooLong, decide_eq_false_iff_not]
  show ¬ Name.longest < last.length
  omega

end Output.IsMade

namespace Tree

variable {t t' : Tree} {o : Output} {place target : Location} {entry : Entry}

/-! ## Putting an output in place -/

/-- Whether a file can be put where a path leads: the directory for it is there, and it would not
take the place of a directory. -/
structure Replaceable (t : Tree) (path : Bytes) : Prop where
  isDirectory : t.isDirectory path = false
  endsInSlash : Path.endsInSlash path = false
  exists_placeFor : ∃ target, t.placeFor path = .ok target

theorem replace_eq_ok_iff :
    t.replace o = .ok t' ↔
      t.isDirectory o.path = false ∧ Path.endsInSlash o.path = false ∧
        ∃ place target entry, t.pendingPlace o = .ok place ∧ t.placeFor o.path = .ok target ∧
          t.get? place = some entry ∧ t' = (t.erase place).put target entry := by
  unfold replace
  cases hdir : t.isDirectory o.path with
  | true =>
    cases hplace : t.pendingPlace o with
    | error fault => simp [bind, Except.bind]
    | ok place => simp [bind, Except.bind, throw, throwThe, MonadExceptOf.throw]
  | false =>
    cases hplace : t.pendingPlace o with
    | error fault => simp [bind, Except.bind]
    | ok place =>
      cases htarget : t.placeFor o.path with
      | error fault => simp [bind, Except.bind]
      | ok target =>
        cases hentry : t.get? place with
        | none =>
          simp [bind, Except.bind, hentry, throw, throwThe, MonadExceptOf.throw]
        | some entry =>
          cases hslash : Path.endsInSlash o.path with
          | true => simp [bind, Except.bind, hentry, throw, throwThe, MonadExceptOf.throw]
          | false => simp [bind, Except.bind, hentry, pure, Except.pure, eq_comm]

/-- The destination of an output that is put in place: a location for files that is no directory,
and the one that the path of the output leads to, before if anything is there and afterwards in any
case. -/
theorem exists_destination {serial : Nat} (hmade : o.IsMade serial)
    (hdir : t.isDirectory o.path = false) (hslash : Path.endsInSlash o.path = false)
    (hplace : t.pendingPlace o = .ok place) (htarget : t.placeFor o.path = .ok target) :
    Location.IsPlain target ∧ target ≠ [] ∧ t.get? target ≠ some .directory ∧
      t.locate o.path = (if t.get? target = none then .error .absent else .ok target) ∧
      ∀ t' : Tree, (∀ p, Location.IsPlain p → t.get? p = some .directory →
          t'.get? p = some .directory) →
        t'.get? target ≠ none → t'.locate o.path = .ok target := by
  obtain ⟨above, last, here, helements, hfollow, hhere, rfl⟩ := placeFor_eq_ok_iff.1 htarget
  have hroot : Location.IsPlain [] := List.forall_mem_nil _
  -- a dot or two at the end would lead to a directory
  have hup : ∀ l, t.follow here [last] = .ok l → t.get? l = some .directory → False := by
    intro l hl hget
    have hlocate : t.locate o.path = .ok l :=
      (locate_eq_follow hmade.locatable hslash helements hfollow).trans hl
    simp [isDirectory, hlocate, hget] at hdir
  have hdot : last ≠ bytes "." := by
    intro he
    apply hup here _ hhere
    exact follow_cons_eq_ok_iff.2 ⟨hhere, Or.inl ⟨he, rfl⟩⟩
  have hdots : last ≠ bytes ".." := by
    intro he
    apply hup here.dropLast
    · exact follow_cons_eq_ok_iff.2 ⟨hhere, Or.inr (Or.inl ⟨he, rfl⟩)⟩
    · exact directory_dropLast hfollow hhere
  have hshort := hmade.isTooLong_last helements hdot (pendingPlace_eq_ok_iff.1 hplace).2.1
  have hlocate := locate_of_follow hmade.locatable hslash helements hdot hdots hshort hfollow hhere
  refine ⟨(isPlain_of_follow hfollow hroot).concat last, by simp, ?_, hlocate, ?_⟩
  · intro hget
    rw [if_neg (by rw [hget]; simp)] at hlocate
    simp [isDirectory, hlocate, hget] at hdir
  · intro t' hdirs hpresent
    rw [locate_of_follow hmade.locatable hslash helements hdot hdots hshort
      (follow_mono hfollow hhere hroot hdirs)
      (hdirs here (isPlain_of_follow hfollow hroot) hhere), if_neg hpresent]

/-! ## Pending files -/

/-- A pending file lies at no location that a path leads to. -/
theorem not_isPlain_of_pendingPlace {serial : Nat} (h : t.pendingPlace o = .ok place)
    (hserial : o.name.serial = some serial) : ¬ Location.IsPlain place := by
  obtain ⟨-, -, directory, -, rfl⟩ := pendingPlace_eq_ok_iff.1 h
  intro hplain
  have hnone := hplain o.name (by simp)
  rw [hserial] at hnone
  cases hnone

theorem ne_nil_of_pendingPlace (h : t.pendingPlace o = .ok place) : place ≠ [] := by
  obtain ⟨-, -, directory, -, rfl⟩ := pendingPlace_eq_ok_iff.1 h
  simp

theorem agrees_put (hplace : place ≠ []) (hplain : ¬ Location.IsPlain place) (entry : Entry) :
    t.Agrees (t.put place entry) := by
  intro l hl
  rw [get?_put t place l entry hplace, if_neg]
  rintro rfl
  exact hplain hl

theorem agrees_erase (hplace : place ≠ []) (hplain : ¬ Location.IsPlain place) :
    t.Agrees (t.erase place) := by
  intro l hl
  rw [get?_erase t place l hplace, if_neg]
  rintro rfl
  exact hplain hl

/-- Setting what is no directory keeps the directories. -/
theorem get?_put_of_directory {p : Location} (hplace : place ≠ [])
    (hfree : t.get? place ≠ some .directory) (hp : t.get? p = some .directory) :
    (t.put place entry).get? p = some .directory := by
  rw [get?_put t place p entry hplace, if_neg]
  · exact hp
  · rintro rfl
    exact hfree hp

/-- Writing changes the pending file, if it is there, and nothing else. -/
theorem append_cases (t : Tree) (o : Output) (data : Bytes) :
    (∃ place written mode, t.pendingPlace o = .ok place ∧
        t.get? place = some (.file written mode) ∧
        t.append o data = t.put place (.file (written ++ data) mode)) ∨
      t.append o data = t ∧
        ∀ place, t.pendingPlace o = .ok place → ∀ written mode,
          t.get? place ≠ some (.file written mode) := by
  unfold append
  cases hplace : t.pendingPlace o with
  | error fault => exact Or.inr ⟨rfl, fun place h => by cases h⟩
  | ok place =>
    dsimp only
    split
    next written mode hget => exact Or.inl ⟨place, written, mode, rfl, hget, rfl⟩
    next hget =>
      refine Or.inr ⟨rfl, fun place' h written mode => ?_⟩
      cases h
      exact hget written mode

/-- Giving up takes the pending file away, wherever it is found. -/
theorem discard_cases (t : Tree) (o : Output) :
    (∃ place, t.pendingPlace o = .ok place ∧ t.discard o = t.erase place) ∨
      t.discard o = t ∧ ∀ place, t.pendingPlace o ≠ .ok place := by
  unfold discard
  cases hplace : t.pendingPlace o with
  | error fault => exact Or.inr ⟨rfl, fun place h => by cases h⟩
  | ok place => exact Or.inl ⟨place, rfl, rfl⟩

end Tree

/-! ## Outputs of a volume -/

namespace Volume

variable {v v' : Volume} {path : Bytes} {digits : Nat} {o : Output}

/-- The permissions of the regular file that a path leads to, and those of a new file where it leads
to none. -/
def modeFor (v : Volume) (path : Bytes) : UInt16 :=
  match v.tree.locate path with
  | .ok here =>
    match v.tree.get? here with
    | some (.file _ mode) => mode
    | _ => v.newMode
  | .error _ => v.newMode

theorem getD_existingMode {mode : Option UInt16} (h : v.tree.existingMode path = .ok mode) :
    mode.getD v.newMode = v.modeFor path := by
  unfold Tree.existingMode at h
  unfold modeFor
  cases hlocate : v.tree.locate path with
  | error fault =>
    rw [hlocate] at h
    cases fault <;> cases h
    rfl
  | ok here =>
    rw [hlocate] at h
    cases hget : v.tree.get? here with
    | none =>
      simp only [hget] at h ⊢
      cases h
      rfl
    | some entry =>
      cases entry <;> simp only [hget] at h ⊢ <;> cases h <;> rfl

/-- Creating an output makes an empty pending file. -/
theorem create_eq_ok_iff :
    v.create path digits = .ok (o, v') ↔
      (∃ mode, v.tree.existingMode path = .ok mode) ∧ o = Output.forPath path v.serial digits ∧
        ∃ place, v.tree.pendingPlace o = .ok place ∧
          v' = { v with
            tree := v.tree.put place (.file [] (v.modeFor path)), serial := v.serial + 1 } := by
  unfold create
  cases hmode : v.tree.existingMode path with
  | error fault => simp
  | ok mode =>
    cases hplace : v.tree.pendingPlace (Output.forPath path v.serial digits) with
    | error fault =>
      simp only [hplace]
      constructor
      · intro h
        cases h
      · rintro ⟨-, rfl, place, h, -⟩
        rw [hplace] at h
        cases h
    | ok place =>
      simp only [hplace, getD_existingMode hmode]
      constructor
      · intro h
        obtain ⟨rfl, rfl⟩ := Prod.mk.inj (Except.ok.inj h)
        exact ⟨⟨mode, rfl⟩, rfl, place, hplace, rfl⟩
      · rintro ⟨-, rfl, place', h, rfl⟩
        rw [hplace] at h
        cases h
        rfl

theorem isMade_of_create (h : v.create path digits = .ok (o, v')) :
    o.path = path ∧ o.closed = false ∧ o.IsMade v.serial := by
  obtain ⟨⟨mode, hmode⟩, rfl, -⟩ := create_eq_ok_iff.1 h
  exact ⟨rfl, rfl, rfl, rfl, Tree.locatable_of_existingMode hmode⟩

/-- Committing an open output puts it in place or gives it up, and closes it. -/
theorem commit_cases (v : Volume) (ho : o.closed = false) :
    (∃ t, v.tree.replace o = .ok t ∧
        v.commit o = ({ o with closed := true }, { v with tree := t }, none)) ∨
      ∃ fault, v.tree.replace o = .error fault ∧
        v.commit o =
          ({ o with closed := true }, { v with tree := v.tree.discard o },
            some (.unreplaced (.rename (o.pendingPath v.tag) o.path fault))) := by
  unfold commit
  rw [if_neg (by simp [ho])]
  cases hreplace : v.tree.replace o with
  | ok t => exact Or.inl ⟨t, rfl, rfl⟩
  | error fault => exact Or.inr ⟨fault, rfl, rfl⟩

end Volume

end Teeny
