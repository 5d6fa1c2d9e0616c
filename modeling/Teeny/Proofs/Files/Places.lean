import Teeny.Proofs.Files.Paths

/-!
# Where paths lead

A path leads along directories (`directory_of_follow`) and never meets a pending file
(`isPlain_of_follow`). So trees that agree on the locations without pending names give the same
answers for all paths (`Agrees`).

A pending file stays where it is found as long as the directories above it stay
(`pendingPlace_of_directories`): the path of its directory is clean and passes through nothing else.
-/

namespace Teeny

/-- Whether a path can lead to a location: no name on the way is that of a pending file. -/
def Location.IsPlain (l : Location) : Prop := ∀ n ∈ l, n.serial = none

theorem Location.IsPlain.concat {l : Location} (h : IsPlain l) (e : Bytes) :
    IsPlain (l ++ [⟨e, none⟩]) := by
  intro n hn
  rcases List.mem_append.1 hn with hn | hn
  · exact h n hn
  · rw [List.mem_singleton.1 hn]

theorem Location.IsPlain.dropLast {l : Location} (h : IsPlain l) : IsPlain (List.dropLast l) :=
  fun n hn => h n (List.dropLast_subset l hn)

namespace Tree

variable {t t' : Tree} {here l : Location} {e : Bytes} {es : List Bytes}

/-! ## Following elements -/

/-- What it takes to follow one element and then others. -/
theorem follow_cons_eq_ok_iff :
    t.follow here (e :: es) = .ok l ↔
      t.get? here = some .directory ∧
        (e = bytes "." ∧ t.follow here es = .ok l ∨
          e = bytes ".." ∧ t.follow here.dropLast es = .ok l ∨
          e ≠ bytes "." ∧ e ≠ bytes ".." ∧ Name.isTooLong ⟨e, none⟩ = false ∧
            t.get? (here ++ [⟨e, none⟩]) ≠ none ∧ t.follow (here ++ [⟨e, none⟩]) es = .ok l) := by
  have hdots : bytes ".." ≠ bytes "." := by decide
  rw [follow]
  by_cases hhere : t.get? here = some .directory
  · rw [if_neg (not_not_intro hhere)]
    by_cases hdot : e = bytes "."
    · simp [hhere, hdot, hdots.symm]
    · by_cases hup : e = bytes ".."
      · simp [hhere, hup, hdots]
      · cases hlong : Name.isTooLong ⟨e, none⟩ with
        | true => simp [hhere, hdot, hup, hlong]
        | false =>
          by_cases habsent : t.get? (here ++ [⟨e, none⟩]) = none
          · simp [hhere, hdot, hup, hlong, habsent]
          · simp [hhere, hdot, hup, hlong, habsent]
  · simp [hhere]

theorem follow_append (h : t.follow here es = .ok l) (fs : List Bytes) :
    t.follow here (es ++ fs) = t.follow l fs := by
  induction es generalizing here with
  | nil =>
    cases h
    rfl
  | cons e es ih =>
    obtain ⟨hdir, hcases⟩ := follow_cons_eq_ok_iff.1 h
    rw [List.cons_append, follow, if_neg (not_not_intro hdir)]
    rcases hcases with ⟨rfl, hrest⟩ | ⟨rfl, hrest⟩ | ⟨hdot, hup, hlong, hpresent, hrest⟩
    · exact ih hrest
    · exact ih hrest
    · simpa [hdot, hup, hlong, hpresent] using ih hrest

/-- What is followed in one go is followed in two. -/
theorem exists_of_follow_append {fs : List Bytes} (h : t.follow here (es ++ fs) = .ok l) :
    ∃ m, t.follow here es = .ok m ∧ t.follow m fs = .ok l := by
  induction es generalizing here with
  | nil => exact ⟨here, rfl, h⟩
  | cons e es ih =>
    obtain ⟨hdir, hcases⟩ := follow_cons_eq_ok_iff.1 h
    rcases hcases with ⟨he, hrest⟩ | ⟨he, hrest⟩ | ⟨hdot, hup, hlong, hpresent, hrest⟩
    · obtain ⟨m, hm, hlater⟩ := ih hrest
      exact ⟨m, follow_cons_eq_ok_iff.2 ⟨hdir, Or.inl ⟨he, hm⟩⟩, hlater⟩
    · obtain ⟨m, hm, hlater⟩ := ih hrest
      exact ⟨m, follow_cons_eq_ok_iff.2 ⟨hdir, Or.inr (Or.inl ⟨he, hm⟩)⟩, hlater⟩
    · obtain ⟨m, hm, hlater⟩ := ih hrest
      exact ⟨m, follow_cons_eq_ok_iff.2
        ⟨hdir, Or.inr (Or.inr ⟨hdot, hup, hlong, hpresent, hm⟩)⟩, hlater⟩

/-- A path never passes through a pending file. -/
theorem isPlain_of_follow (h : t.follow here es = .ok l) (hhere : Location.IsPlain here) :
    Location.IsPlain l := by
  induction es generalizing here with
  | nil =>
    cases h
    exact hhere
  | cons e es ih =>
    obtain ⟨-, ⟨-, h⟩ | ⟨-, h⟩ | ⟨-, -, -, -, h⟩⟩ := follow_cons_eq_ok_iff.1 h
    · exact ih h hhere
    · exact ih h hhere.dropLast
    · exact ih h (hhere.concat e)

theorem directory_of_follow_from (h : t.follow here es = .ok l)
    (hhere : ∀ p, p <+: here → p ≠ here → t.get? p = some .directory) :
    ∀ p, p <+: l → p ≠ l → t.get? p = some .directory := by
  induction es generalizing here with
  | nil =>
    cases h
    exact hhere
  | cons e es ih =>
    obtain ⟨hdir, ⟨-, h⟩ | ⟨-, h⟩ | ⟨-, -, -, -, h⟩⟩ := follow_cons_eq_ok_iff.1 h
    · exact ih h hhere
    · apply ih h
      intro p hp hne
      apply hhere p (hp.trans (List.dropLast_prefix here))
      intro he
      subst he
      have hlen := hp.length_le
      have hpos : p ≠ [] := by
        rintro rfl
        exact hne rfl
      have := List.length_pos_iff.2 hpos
      rw [List.length_dropLast] at hlen
      omega
    · apply ih h
      intro p hp hne
      rcases List.prefix_concat_iff.1 hp with he | hp
      · exact absurd he hne
      · by_cases he : p = here
        · rw [he]
          exact hdir
        · exact hhere p hp he

/-- All that lies above the end of a path is a directory. -/
theorem directory_of_follow (h : t.follow [] es = .ok l) :
    ∀ p, p <+: l → p ≠ l → t.get? p = some .directory :=
  directory_of_follow_from h fun _ hp hne => absurd (List.prefix_nil.1 hp) hne

/-- One level above a directory there is a directory, or the root again. -/
theorem directory_dropLast (h : t.follow [] es = .ok l) (hl : t.get? l = some .directory) :
    t.get? l.dropLast = some .directory := by
  by_cases hup : l.dropLast = l
  · rw [hup]
    exact hl
  · exact directory_of_follow h _ (List.dropLast_prefix l) hup

/-- A path that goes down only is followed in every tree that has the directories on its way. -/
theorem follow_of_directories (h : t.follow here es = .ok l) (hes : Path.Descends es)
    (hhere : here = [] ∨ bytes ".." ∉ es)
    (hdirs : ∀ p, p <+: l → t'.get? p = some .directory) :
    here <+: l ∧ t'.follow here es = .ok l := by
  induction es generalizing here with
  | nil =>
    cases h
    exact ⟨List.prefix_refl _, rfl⟩
  | cons e es ih =>
    obtain ⟨hbefore, hmore⟩ := List.pairwise_cons.1 hes
    obtain ⟨-, hcases⟩ := follow_cons_eq_ok_iff.1 h
    rcases hcases with ⟨he, hrest⟩ | ⟨rfl, hrest⟩ | ⟨hdot, hup, hlong, -, hrest⟩
    · have hhere' := hhere.imp_right fun hmem => mt (List.mem_cons_of_mem e) hmem
      obtain ⟨hpre, hfollow⟩ := ih hrest hmore hhere'
      exact ⟨hpre, follow_cons_eq_ok_iff.2 ⟨hdirs here hpre, Or.inl ⟨he, hfollow⟩⟩⟩
    · -- two dots are left only at the root
      obtain rfl : here = [] := hhere.resolve_right fun hmem => hmem (List.mem_cons_self ..)
      obtain ⟨hpre, hfollow⟩ := ih hrest hmore (Or.inl rfl)
      exact ⟨hpre, follow_cons_eq_ok_iff.2 ⟨hdirs [] hpre, Or.inr (Or.inl ⟨rfl, hfollow⟩)⟩⟩
    · obtain ⟨hpre, hfollow⟩ := ih hrest hmore (Or.inr fun hmem => hup (hbefore _ hmem rfl))
      have hpre' := (List.prefix_append here [⟨e, none⟩]).trans hpre
      have hpresent : t'.get? (here ++ [⟨e, none⟩]) ≠ none := by
        rw [hdirs _ hpre]
        simp
      exact ⟨hpre', follow_cons_eq_ok_iff.2
        ⟨hdirs here hpre', Or.inr (Or.inr ⟨hdot, hup, hlong, hpresent, hfollow⟩)⟩⟩

/-- A path to a directory is followed in every tree that has all the directories. -/
theorem follow_mono (h : t.follow here es = .ok l) (hl : t.get? l = some .directory)
    (hhere : Location.IsPlain here)
    (hdirs : ∀ p, Location.IsPlain p → t.get? p = some .directory →
      t'.get? p = some .directory) :
    t'.follow here es = .ok l := by
  induction es generalizing here with
  | nil =>
    cases h
    rfl
  | cons e es ih =>
    obtain ⟨hdir, hcases⟩ := follow_cons_eq_ok_iff.1 h
    have hdown := hhere.concat e
    refine follow_cons_eq_ok_iff.2 ⟨hdirs here hhere hdir, ?_⟩
    rcases hcases with ⟨he, hrest⟩ | ⟨he, hrest⟩ | ⟨hdot, hup, hlong, -, hrest⟩
    · exact Or.inl ⟨he, ih hrest hhere⟩
    · exact Or.inr (Or.inl ⟨he, ih hrest hhere.dropLast⟩)
    · have hnext : t.get? (here ++ [⟨e, none⟩]) = some .directory := by
        cases es with
        | nil =>
          cases hrest
          exact hl
        | cons f es => exact (follow_cons_eq_ok_iff.1 hrest).1
      have hpresent : t'.get? (here ++ [⟨e, none⟩]) ≠ none := by
        rw [hdirs _ hdown hnext]
        simp
      exact Or.inr (Or.inr ⟨hdot, hup, hlong, hpresent, ih hrest hdown⟩)

theorem directoryAt_eq_ok_iff {path : Bytes} :
    t.directoryAt path = .ok l ↔
      t.follow [] (Path.elements path) = .ok l ∧ t.get? l = some .directory := by
  unfold directoryAt
  cases hfollow : t.follow [] (Path.elements path) with
  | error fault => simp [bind, Except.bind]
  | ok here =>
    by_cases hdir : t.get? here = some .directory
    · simp only [bind, Except.bind, hdir, if_true, pure, Except.pure, Except.ok.injEq]
      constructor
      · rintro rfl
        exact ⟨rfl, hdir⟩
      · exact And.left
    · simp only [bind, Except.bind, hdir, if_false, Except.ok.injEq]
      constructor
      · intro h
        cases h
      · rintro ⟨rfl, h⟩
        exact absurd h hdir

theorem isPlain_of_locate {path : Bytes} (h : t.locate path = .ok l) : Location.IsPlain l := by
  have hfollow : t.follow [] (Path.elements path) = .ok l := by
    unfold locate at h
    split at h
    next => cases h
    next =>
      split at h
      next => cases h
      next =>
        split at h
        next => cases h
        next =>
          split at h
          next => exact (directoryAt_eq_ok_iff.1 h).1
          next => exact h
  exact isPlain_of_follow hfollow (List.forall_mem_nil _)

/-! ## Trees that differ in pending files -/

/-- Whether two trees have the same entries wherever a path can lead. -/
def Agrees (t t' : Tree) : Prop := ∀ l, Location.IsPlain l → t.get? l = t'.get? l

namespace Agrees

theorem refl (t : Tree) : t.Agrees t := fun _ _ => rfl

theorem trans {t'' : Tree} (h : t.Agrees t') (h' : t'.Agrees t'') : t.Agrees t'' :=
  fun l hl => (h l hl).trans (h' l hl)

theorem follow_eq (h : t.Agrees t') (hhere : Location.IsPlain here) :
    t.follow here es = t'.follow here es := by
  induction es generalizing here with
  | nil => rfl
  | cons e es ih =>
    have hdown := hhere.concat e
    rw [follow, follow]
    dsimp only
    rw [h here hhere, h _ hdown, ih hhere, ih hhere.dropLast, ih hdown]

theorem directoryAt_eq (h : t.Agrees t') (path : Bytes) :
    t.directoryAt path = t'.directoryAt path := by
  have hroot : Location.IsPlain [] := List.forall_mem_nil _
  unfold directoryAt
  rw [h.follow_eq hroot]
  cases hfollow : t'.follow [] (Path.elements path) with
  | error fault => rfl
  | ok l =>
    show (if t.get? l = _ then _ else _) = (if t'.get? l = _ then _ else _)
    rw [h l (isPlain_of_follow hfollow hroot)]

theorem pendingPlace_eq (h : t.Agrees t') (o : Output) : t.pendingPlace o = t'.pendingPlace o := by
  unfold pendingPlace
  rw [h.directoryAt_eq]

theorem locate_eq (h : t.Agrees t') (path : Bytes) : t.locate path = t'.locate path := by
  unfold locate
  rw [h.directoryAt_eq, h.follow_eq (List.forall_mem_nil _)]

theorem isDirectory_eq (h : t.Agrees t') (path : Bytes) :
    t.isDirectory path = t'.isDirectory path := by
  unfold isDirectory
  rw [h.locate_eq]
  cases hlocate : t'.locate path with
  | error fault => rfl
  | ok here =>
    show decide (t.get? here = _) = decide (t'.get? here = _)
    rw [h here (isPlain_of_locate hlocate)]

theorem placeFor_eq (h : t.Agrees t') (path : Bytes) : t.placeFor path = t'.placeFor path := by
  have hroot : Location.IsPlain [] := List.forall_mem_nil _
  unfold placeFor
  split
  next => rfl
  next last above helements =>
    rw [h.follow_eq hroot]
    cases hfollow : t'.follow [] above.reverse with
    | error fault => rfl
    | ok here =>
      show (if t.get? here = _ then _ else _) = (if t'.get? here = _ then _ else _)
      rw [h here (isPlain_of_follow hfollow hroot)]

end Agrees

/-! ## Pending files -/

/-- Where a pending file lies: in the directory of its output, under its name. -/
theorem pendingPlace_eq_ok_iff {o : Output} :
    t.pendingPlace o = .ok l ↔
      o.home.length + o.size ≤ Path.longest ∧ o.size ≤ Name.longest ∧
        ∃ directory, t.directoryAt o.home = .ok directory ∧ l = directory ++ [o.name] := by
  unfold pendingPlace
  by_cases hlong : Path.longest < o.home.length + o.size
  · simp [hlong, Nat.not_le.2 hlong]
  · rw [if_neg hlong]
    cases hdir : t.directoryAt o.home with
    | error fault => simp [bind, Except.bind]
    | ok directory =>
      by_cases hname : Name.longest < o.size
      · simp [bind, Except.bind, throw, throwThe, MonadExceptOf.throw, hname, Nat.not_le.2 hname]
      · simp [bind, Except.bind, pure, Except.pure, Nat.not_lt.1 hlong, hname, Nat.not_lt.1 hname,
          eq_comm]

section
variable {o : Output} (h : t.pendingPlace o = .ok l)
include h

theorem getLast?_of_pendingPlace : l.getLast? = some o.name := by
  obtain ⟨-, -, directory, -, rfl⟩ := pendingPlace_eq_ok_iff.1 h
  exact List.getLast?_concat

/-- The directories of a pending file. -/
theorem directory_of_pendingPlace : ∀ p, p <+: l.dropLast → t.get? p = some .directory := by
  obtain ⟨-, -, directory, hdir, rfl⟩ := pendingPlace_eq_ok_iff.1 h
  obtain ⟨hfollow, hdir⟩ := directoryAt_eq_ok_iff.1 hdir
  intro p hp
  rw [List.dropLast_concat] at hp
  by_cases he : p = directory
  · rw [he]
    exact hdir
  · exact directory_of_follow hfollow p hp he

/-- A pending file is found again wherever its directories are. -/
theorem pendingPlace_of_directories (hhome : Path.Descends (Path.elements o.home))
    (hdirs : ∀ p, p <+: l.dropLast → t'.get? p = some .directory) :
    t'.pendingPlace o = .ok l := by
  obtain ⟨hpath, hname, directory, hdir, rfl⟩ := pendingPlace_eq_ok_iff.1 h
  rw [List.dropLast_concat] at hdirs
  obtain ⟨-, hfollow⟩ :=
    follow_of_directories (directoryAt_eq_ok_iff.1 hdir).1 hhome (Or.inl rfl) hdirs
  have hdir' := directoryAt_eq_ok_iff.2 ⟨hfollow, hdirs directory (List.prefix_refl _)⟩
  exact pendingPlace_eq_ok_iff.2 ⟨hpath, hname, directory, hdir', rfl⟩

end

end Tree

end Teeny
