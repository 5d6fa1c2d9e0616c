import Teeny.Proofs.Files.Outputs

/-!
# Pending files that stay

While outputs are open, others may remove and make directories, and outputs may be put in place. A
pending file is then gone, or it stands where it stood in directories that are still there
(`Stays`), and then its output finds it (`Stays.pendingPlace_eq`).
-/

namespace Teeny.Tree

variable {t t' : Tree} {o : Output} {l place target : Location} {serial : Nat}

theorem isPlain_dropLast_of_pendingPlace (h : t.pendingPlace o = .ok l) :
    Location.IsPlain l.dropLast := by
  obtain ⟨-, -, directory, hdir, rfl⟩ := pendingPlace_eq_ok_iff.1 h
  rw [List.dropLast_concat]
  exact isPlain_of_follow (directoryAt_eq_ok_iff.1 hdir).1 (List.forall_mem_nil _)

/-- Whether a change of the tree leaves alone what stands at a location, and the directories that a
path to it passes through. -/
structure Stays (t t' : Tree) (l : Location) : Prop where
  get?_eq : t'.get? l = t.get? l
  directory : ∀ p, Location.IsPlain p → p <+: l.dropLast → t.get? p = some .directory →
    t'.get? p = some .directory

theorem Stays.of_agrees (h : t.Agrees t') (hl : t'.get? l = t.get? l) : t.Stays t' l :=
  ⟨hl, fun p hplain _ hp => (h p hplain).symm.trans hp⟩

/-- A pending file that stays is found where it was. -/
theorem Stays.pendingPlace_eq (h : t.Stays t' l) (hmade : o.IsMade serial)
    (hplace : t.pendingPlace o = .ok l) : t'.pendingPlace o = .ok l := by
  apply pendingPlace_of_directories hplace hmade.descends
  intro p hp
  refine h.directory p ?_ hp (directory_of_pendingPlace hplace p hp)
  intro n hn
  exact isPlain_dropLast_of_pendingPlace hplace n (hp.subset hn)

/-! ## Changes by others -/

theorem get?_eraseAll (t : Tree) (hplace : place ≠ []) (l : Location) :
    (t.eraseAll place).get? l = if place <+: l then none else t.get? l := by
  have hentries : ∀ es : List (Location × Entry),
      findEntry l (es.filter fun e => !place.isPrefixOf e.1) =
        if place <+: l then none else findEntry l es := by
    intro es
    induction es with
    | nil => simp [findEntry]
    | cons e es ih =>
      by_cases hpre : place <+: e.1
      · rw [List.filter_cons_of_neg (by simpa using hpre), ih]
        by_cases hl : e.1 = l
        · rw [← hl, if_pos hpre, if_pos hpre]
        · rw [findEntry, if_neg hl]
      · have hpre' : place.isPrefixOf e.1 = false := by
          rw [← Bool.not_eq_true, List.isPrefixOf_iff_prefix]
          exact hpre
        rw [List.filter_cons_of_pos (by simp [hpre']), findEntry, findEntry, ih]
        by_cases hl : e.1 = l
        · rw [if_pos hl, if_pos hl, ← hl, if_neg hpre]
        · rw [if_neg hl, if_neg hl]
  unfold get? eraseAll
  by_cases hl : l = []
  · rw [if_pos hl, if_pos hl, hl, if_neg]
    exact fun hpre => hplace (List.prefix_nil.1 hpre)
  · rw [if_neg hl, if_neg hl]
    exact hentries t.entries

/-- What a removal leaves has its directories left. -/
theorem stays_of_remove {path : Bytes} (hl : (t.remove path).get? l ≠ none) :
    t.Stays (t.remove path) l := by
  unfold remove at hl ⊢
  split at hl
  next => exact .of_agrees (.refl t) rfl
  next => exact .of_agrees (.refl t) rfl
  next here hroot hfollow =>
    have hne : here ≠ [] := hroot
    rw [get?_eraseAll t hne] at hl
    have hpre : ¬ here <+: l := by
      intro hpre
      rw [if_pos hpre] at hl
      exact hl rfl
    refine ⟨by rw [get?_eraseAll t hne, if_neg hpre], ?_⟩
    intro p _ hp hdir
    rw [get?_eraseAll t hne, if_neg, hdir]
    exact fun hpre' => hpre (hpre'.trans (hp.trans (List.dropLast_prefix l)))

/-- Making directories adds directories where nothing was, at plain locations. -/
theorem get?_of_makeAlong {here : Location} {passed : Bytes} {es : List Bytes}
    (h : t.makeAlong here passed es = .ok t') (hhere : Location.IsPlain here) :
    (∀ l, ¬ Location.IsPlain l → t'.get? l = t.get? l) ∧
      ∀ p, t.get? p = some .directory → t'.get? p = some .directory := by
  induction es generalizing t here passed with
  | nil =>
    cases h
    exact ⟨fun l _ => rfl, fun p hp => hp⟩
  | cons e es ih =>
    have hdown := hhere.concat e
    rw [makeAlong] at h
    dsimp only at h
    generalize (if passed = [] then e else passed ++ Path.slash :: e) = passed' at h
    split at h
    next => exact ih h hhere
    next =>
      split at h
      next => exact ih h hhere.dropLast
      next =>
        split at h
        next => exact ih h hdown
        next => cases h
        next hfree =>
          split at h
          next => cases h
          next =>
            split at h
            next => cases h
            next =>
              obtain ⟨hother, hdirs⟩ := ih h hdown
              constructor
              · intro l hl
                rw [hother l hl, get?_put t _ _ _ (by simp), if_neg]
                rintro rfl
                exact hl hdown
              · intro p hp
                apply hdirs
                rw [get?_put t _ _ _ (by simp), hp]
                split <;> rfl

theorem stays_of_makeDirectory {path : Bytes} (h : t.makeDirectory path = .ok t')
    (hl : ¬ Location.IsPlain l) : t.Stays t' l := by
  obtain ⟨hother, hdirs⟩ := get?_of_makeAlong h (List.forall_mem_nil _)
  exact ⟨hother l hl, fun p _ _ hp => hdirs p hp⟩

/-! ## Changes by outputs -/

section
variable (hmade : o.IsMade serial)
include hmade

theorem agrees_append (t : Tree) (data : Bytes) : t.Agrees (t.append o data) := by
  rcases t.append_cases o data with ⟨place, written, mode, hplace, -, heq⟩ | ⟨heq, -⟩
  · rw [heq]
    exact agrees_put (ne_nil_of_pendingPlace hplace)
      (not_isPlain_of_pendingPlace hplace hmade.serial_eq) _
  · rw [heq]
    exact .refl t

theorem agrees_discard (t : Tree) : t.Agrees (t.discard o) := by
  rcases t.discard_cases o with ⟨place, hplace, heq⟩ | ⟨heq, -⟩
  · rw [heq]
    exact agrees_erase (ne_nil_of_pendingPlace hplace)
      (not_isPlain_of_pendingPlace hplace hmade.serial_eq)
  · rw [heq]
    exact .refl t

end

theorem get?_discard_of_ne (h : t.pendingPlace o ≠ .ok l) : (t.discard o).get? l = t.get? l := by
  rcases t.discard_cases o with ⟨place, hplace, heq⟩ | ⟨heq, -⟩
  · rw [heq, get?_erase t place l (ne_nil_of_pendingPlace hplace), if_neg]
    rintro rfl
    exact h hplace
  · rw [heq]

theorem get?_discard_self (h : t.pendingPlace o = .ok l) : (t.discard o).get? l = none := by
  rcases t.discard_cases o with ⟨place, hplace, heq⟩ | ⟨-, hnone⟩
  · rw [h] at hplace
    cases hplace
    rw [heq, get?_erase t l l (ne_nil_of_pendingPlace h), if_pos rfl]
  · exact absurd h (hnone l)

theorem get?_append_of_ne {data : Bytes} (h : t.pendingPlace o ≠ .ok l) :
    (t.append o data).get? l = t.get? l := by
  rcases t.append_cases o data with ⟨place, written, mode, hplace, -, heq⟩ | ⟨heq, -⟩
  · rw [heq, get?_put t place l _ (ne_nil_of_pendingPlace hplace), if_neg]
    rintro rfl
    exact h hplace
  · rw [heq]

/-- An output that is put in place stands where its path leads then, its pending file is gone, and
nothing else has changed, the directories least of all. -/
theorem exists_target_of_replace (hmade : o.IsMade serial) (h : t.replace o = .ok t') :
    ∃ place target entry, t.pendingPlace o = .ok place ∧ t.get? place = some entry ∧
      Location.IsPlain target ∧ t'.locate o.path = .ok target ∧
      (∀ p, Location.IsPlain p → t.get? p = some .directory → t'.get? p = some .directory) ∧
      ∀ l, t'.get? l = if l = target then some entry else if l = place then none else t.get? l := by
  obtain ⟨hdir, hslash, place, target, entry, hplace, htarget, hentry, rfl⟩ :=
    replace_eq_ok_iff.1 h
  obtain ⟨hplain, hne, hfree, -, hlocate⟩ := exists_destination hmade hdir hslash hplace htarget
  have hget : ∀ l, ((t.erase place).put target entry).get? l =
      if l = target then some entry else if l = place then none else t.get? l := by
    intro l
    rw [get?_put _ _ _ _ hne, get?_erase _ _ _ (ne_nil_of_pendingPlace hplace)]
  have hdirs : ∀ p, Location.IsPlain p → t.get? p = some .directory →
      ((t.erase place).put target entry).get? p = some .directory := by
    intro p hp hdir
    rw [hget, if_neg, if_neg, hdir]
    · rintro rfl
      exact not_isPlain_of_pendingPlace hplace hmade.serial_eq hp
    · rintro rfl
      exact hfree hdir
  refine ⟨place, target, entry, hplace, hentry, hplain, hlocate _ hdirs ?_, hdirs, hget⟩
  rw [hget, if_pos rfl]
  simp

theorem stays_of_replace (hmade : o.IsMade serial) (h : t.replace o = .ok t')
    (hl : ¬ Location.IsPlain l) (hpresent : t'.get? l ≠ none) :
    t.pendingPlace o ≠ .ok l ∧ t.Stays t' l := by
  obtain ⟨place, target, entry, hplace, -, hplain, -, hdirs, hget⟩ :=
    exists_target_of_replace hmade h
  have htarget : l ≠ target := by
    rintro rfl
    exact hl hplain
  have hne : l ≠ place := by
    rintro rfl
    rw [hget, if_neg htarget, if_pos rfl] at hpresent
    exact hpresent rfl
  refine ⟨?_, by rw [hget, if_neg htarget, if_neg hne], fun p hp _ => hdirs p hp⟩
  intro hl'
  rw [hplace] at hl'
  exact hne (Except.ok.inj hl').symm

/-- Giving up an output takes its pending file away and leaves the others. -/
theorem stays_of_discard (hmade : o.IsMade serial) (hpresent : (t.discard o).get? l ≠ none) :
    t.pendingPlace o ≠ .ok l ∧ t.Stays (t.discard o) l := by
  have hne : t.pendingPlace o ≠ .ok l := by
    intro hplace
    rw [get?_discard_self hplace] at hpresent
    exact hpresent rfl
  exact ⟨hne, .of_agrees (agrees_discard hmade t) (get?_discard_of_ne hne)⟩

end Teeny.Tree
