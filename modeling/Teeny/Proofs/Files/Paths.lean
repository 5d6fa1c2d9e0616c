import Teeny.Files.Output
import Teeny.Proofs.Text.ReadBack

/-!
# Elements of paths

What the file trees need to know about texts of paths. A cleaned path has its two dots in front of
all names (`descends_clean`), so whoever follows it goes down only; and behind a name that is no dot
the pending file of an output is named (`text_name`).
-/

namespace Teeny

namespace Path

/-! ## Cutting and joining -/

/-- Whether a text can be an element of a path. -/
def IsElement (e : Bytes) : Prop := e ≠ [] ∧ slash ∉ e

theorem split_ne_nil (p : Bytes) : split p ≠ [] := by
  cases p with
  | nil => simp [split]
  | cons b p =>
    unfold split
    split
    next => simp
    next => split <;> simp

theorem split_cons_of_ne {b : UInt8} (hb : b ≠ slash) (p : Bytes) :
    ∃ e es, split p = e :: es ∧ split (b :: p) = (b :: e) :: es := by
  cases hp : split p with
  | nil => exact absurd hp (split_ne_nil p)
  | cons e es =>
    refine ⟨e, es, rfl, ?_⟩
    rw [split, if_neg hb, hp]

theorem split_append (a b : Bytes) : split (a ++ slash :: b) = split a ++ split b := by
  induction a with
  | nil => simp [split]
  | cons c a ih =>
    by_cases hc : c = slash
    · simp [split, hc, ih]
    · obtain ⟨e, es, hsplit, hcons⟩ := split_cons_of_ne hc a
      obtain ⟨e', es', hsplit', hcons'⟩ := split_cons_of_ne hc (a ++ slash :: b)
      rw [hsplit, hsplit'] at ih
      obtain ⟨rfl, rfl⟩ := List.cons.inj ih
      rw [List.cons_append, hcons', hcons]
      rfl

theorem split_of_not_mem {p : Bytes} (h : slash ∉ p) : split p = [p] := by
  induction p with
  | nil => rfl
  | cons b p ih =>
    obtain ⟨hb, hp⟩ := not_or.1 (mt List.mem_cons.2 h)
    rw [split, if_neg (Ne.symm hb), ih hp]

theorem not_mem_of_mem_split {p e : Bytes} (h : e ∈ split p) : slash ∉ e := by
  induction p generalizing e with
  | nil =>
    rw [List.mem_singleton.1 h]
    simp
  | cons b p ih =>
    by_cases hb : b = slash
    · rw [split, if_pos hb] at h
      rcases List.mem_cons.1 h with rfl | h
      · simp
      · exact ih h
    · obtain ⟨first, es, hsplit, hcons⟩ := split_cons_of_ne hb p
      rw [hsplit] at ih
      rw [hcons] at h
      rcases List.mem_cons.1 h with rfl | h
      · intro hmem
        rcases List.mem_cons.1 hmem with he | hmem
        · exact hb he.symm
        · exact ih (List.mem_cons_self ..) hmem
      · exact ih (List.mem_cons_of_mem _ h)

theorem elements_append (a b : Bytes) :
    elements (a ++ slash :: b) = elements a ++ elements b := by
  rw [elements, split_append, List.filter_append]
  rfl

theorem elements_of_isElement {e : Bytes} (h : IsElement e) : elements e = [e] := by
  simp [elements, split_of_not_mem h.2, h.1]

theorem isElement_of_mem {p e : Bytes} (h : e ∈ elements p) : IsElement e := by
  obtain ⟨hmem, hne⟩ := List.mem_filter.1 h
  exact ⟨of_decide_eq_true hne, not_mem_of_mem_split hmem⟩

theorem intercalate_concat {es : List Bytes} (hes : es ≠ []) (e : Bytes) :
    [slash].intercalate (es ++ [e]) = [slash].intercalate es ++ slash :: e := by
  induction es with
  | nil => contradiction
  | cons x es ih =>
    cases es with
    | nil => simp [List.intercalate]
    | cons y es =>
      have hcons := ih (by simp)
      simp only [List.cons_append] at hcons ⊢
      rw [List.intercalate_cons_cons, hcons, List.intercalate_cons_cons]
      simp

theorem elements_intercalate {es : List Bytes} (h : ∀ e ∈ es, IsElement e) :
    elements ([slash].intercalate es) = es := by
  induction es with
  | nil => rfl
  | cons e es ih =>
    obtain ⟨he, hes⟩ := List.forall_mem_cons.1 h
    cases es with
    | nil => simpa [List.intercalate] using elements_of_isElement he
    | cons e' es =>
      rw [List.intercalate_cons_cons, List.append_assoc, List.singleton_append, elements_append,
        elements_of_isElement he, ih hes]
      rfl

/-! ## The last element -/

/-- What stands behind the last slash is the last element. -/
theorem lastElement_eq {a e : Bytes} (ha : ∀ b ∈ a.getLast?, b = slash) (he : slash ∉ e) :
    lastElement (a ++ e) = e := by
  have hrun : ∀ b ∈ e.reverse, decide (b ≠ slash) = true := by
    intro b hb
    rw [decide_eq_true_iff]
    intro hslash
    rw [hslash] at hb
    exact he (List.mem_reverse.1 hb)
  have hstop : Stops (fun b => decide (b ≠ slash)) a.reverse := by
    intro b hb
    rw [List.head?_reverse] at hb
    simpa using ha b hb
  rw [lastElement, List.reverse_append, takeWhile_run hrun hstop, List.reverse_reverse]

theorem baseName_eq {p last : Bytes} {above : List Bytes} (h : elements p = above ++ [last]) :
    baseName p = last := by
  have hne : p ≠ [] := by
    intro hnil
    rw [hnil] at h
    simp [elements, split] at h
  rw [baseName, if_neg hne, h, List.getLast?_concat]

theorem IsElement.dot_cons {e : Bytes} (h : IsElement e) : IsElement (dot :: e) := by
  refine ⟨by simp, fun hmem => ?_⟩
  rcases List.mem_cons.1 hmem with he | hmem
  · exact absurd he (by decide)
  · exact h.2 hmem

/-- All elements of a path but the last stand before the last slash. -/
theorem elements_upToSlash_append (p : Bytes) :
    elements (upToSlash p) ++ elements (lastElement p) = elements p := by
  have hsplit := upToSlash_append_lastElement p
  have hstop := stops_dropWhile (p := fun b => decide (b ≠ slash)) p.reverse
  cases hdrop : p.reverse.dropWhile (fun b => decide (b ≠ slash)) with
  | nil =>
    have hup : upToSlash p = [] := by rw [upToSlash, hdrop, List.reverse_nil]
    rw [hup, List.nil_append] at hsplit
    rw [hup, hsplit]
    rfl
  | cons b more =>
    rw [hdrop, stops_cons, decide_eq_false_iff_not, ne_eq, Decidable.not_not] at hstop
    have hup : upToSlash p = more.reverse ++ slash :: [] := by
      rw [upToSlash, hdrop, hstop, List.reverse_cons]
    have hnil : elements [] = [] := rfl
    rw [hup, List.append_assoc] at hsplit
    rw [hup, elements_append, hnil, List.append_nil, ← elements_append]
    exact congrArg elements hsplit

/-! ## Cleaned paths -/

/-- Whether no name stands before two dots. -/
def Descends (es : List Bytes) : Prop := es.Pairwise fun a b => b = bytes ".." → a = bytes ".."

/-- The elements that cleaning keeps, the last one first, have the two dots behind all names. -/
theorem cleanStep_ascends (rooted : Bool) {above : List Bytes} (e : Bytes)
    (h : above.Pairwise fun a b => a = bytes ".." → b = bytes "..") :
    (cleanStep rooted above e).Pairwise fun a b => a = bytes ".." → b = bytes ".." := by
  unfold cleanStep
  split
  next => exact h
  next =>
    split
    next hdots =>
      split
      next => split <;> simp
      next last outer =>
        split
        next hlast =>
          refine List.pairwise_cons.2 ⟨fun b hb _ => ?_, h⟩
          rcases List.mem_cons.1 hb with rfl | hb
          · exact hlast
          · exact (List.pairwise_cons.1 h).1 b hb hlast
        next => exact (List.pairwise_cons.1 h).2
    next hdots => exact List.pairwise_cons.2 ⟨fun b _ he => absurd he hdots, h⟩

theorem mem_cleanStep {rooted : Bool} {above : List Bytes} {e x : Bytes}
    (h : x ∈ cleanStep rooted above e) : x ∈ above ∨ x = e := by
  unfold cleanStep at h
  split at h
  next => exact Or.inl h
  next =>
    split at h
    next =>
      split at h
      next => split at h <;> simp_all
      next last outer =>
        split at h
        next =>
          rcases List.mem_cons.1 h with rfl | h
          · exact Or.inr rfl
          · exact Or.inl h
        next => exact Or.inl (List.mem_cons_of_mem _ h)
    next =>
      rcases List.mem_cons.1 h with rfl | h
      · exact Or.inr rfl
      · exact Or.inl h

/-- What cleaning keeps of elements is some of them, with two dots in front. -/
theorem foldl_cleanStep (rooted : Bool) (es above : List Bytes)
    (h : above.Pairwise fun a b => a = bytes ".." → b = bytes "..") :
    ((es.foldl (cleanStep rooted) above).Pairwise fun a b => a = bytes ".." → b = bytes "..") ∧
      ∀ x ∈ es.foldl (cleanStep rooted) above, x ∈ above ∨ x ∈ es := by
  induction es generalizing above with
  | nil => exact ⟨h, fun x hx => Or.inl hx⟩
  | cons e es ih =>
    obtain ⟨hpairs, hmem⟩ := ih _ (cleanStep_ascends rooted e h)
    refine ⟨hpairs, fun x hx => ?_⟩
    rcases hmem x hx with hx | hx
    · rcases mem_cleanStep hx with hx | rfl
      · exact Or.inl hx
      · exact Or.inr (List.mem_cons_self ..)
    · exact Or.inr (List.mem_cons_of_mem _ hx)

/-- The elements of a cleaned path are those that cleaning keeps, or a dot if there are none. -/
theorem elements_clean_cases (p : Bytes) :
    elements (clean p) = ((elements p).foldl (cleanStep (isRooted p)) []).reverse ∨
      (elements p).foldl (cleanStep (isRooted p)) [] = [] ∧ elements (clean p) = [bytes "."] := by
  obtain ⟨-, hmem⟩ := foldl_cleanStep (isRooted p) (elements p) [] List.Pairwise.nil
  have hkept : elements ([slash].intercalate
      ((elements p).foldl (cleanStep (isRooted p)) []).reverse) =
      ((elements p).foldl (cleanStep (isRooted p)) []).reverse := by
    refine elements_intercalate fun e he => ?_
    rcases hmem e (List.mem_reverse.1 he) with he | he
    · cases he
    · exact isElement_of_mem he
  unfold clean
  dsimp only
  split
  next =>
    rw [← List.nil_append (slash :: _), elements_append, hkept]
    exact Or.inl rfl
  next =>
    split
    next hnil => exact Or.inr ⟨List.reverse_eq_nil_iff.1 hnil, rfl⟩
    next => exact Or.inl hkept

theorem descends_clean (p : Bytes) : Descends (elements (clean p)) := by
  obtain ⟨hpairs, -⟩ := foldl_cleanStep (isRooted p) (elements p) [] List.Pairwise.nil
  rcases elements_clean_cases p with hclean | ⟨-, hclean⟩
  · rw [hclean]
    exact List.pairwise_reverse.2 hpairs
  · rw [hclean]
    exact List.pairwise_singleton ..

/-- Cleaning keeps the last element, unless it is a dot or two. -/
theorem lastElement_clean {p e : Bytes} {es : List Bytes} (h : elements p = es ++ [e])
    (hdot : e ≠ bytes ".") (hdots : e ≠ bytes "..") : lastElement (clean p) = e := by
  have he : IsElement e := isElement_of_mem (p := p) (by rw [h]; simp)
  have hkept : ((elements p).foldl (cleanStep (isRooted p)) []).reverse =
      (es.foldl (cleanStep (isRooted p)) []).reverse ++ [e] := by
    rw [h, List.foldl_append, List.foldl_cons, List.foldl_nil, cleanStep.eq_def, if_neg hdot,
      if_neg hdots, List.reverse_cons]
  have hjoined : ∃ a, [slash].intercalate ((es.foldl (cleanStep (isRooted p)) []).reverse ++ [e]) =
      a ++ e ∧ ∀ b ∈ a.getLast?, b = slash := by
    by_cases hnil : (es.foldl (cleanStep (isRooted p)) []).reverse = []
    · rw [hnil]
      exact ⟨[], by simp [List.intercalate], by simp⟩
    · rw [intercalate_concat hnil]
      refine ⟨[slash].intercalate (es.foldl (cleanStep (isRooted p)) []).reverse ++ [slash],
        by simp, ?_⟩
      intro b hb
      rw [List.getLast?_concat] at hb
      exact (Option.some.inj hb).symm
  obtain ⟨a, ha, hlast⟩ := hjoined
  unfold clean
  dsimp only
  rw [hkept, ha]
  split
  next =>
    refine lastElement_eq (a := slash :: a) ?_ he.2
    intro b hb
    rw [List.getLast?_cons] at hb
    cases hlast' : a.getLast? with
    | none => simpa [hlast', eq_comm] using hb
    | some c =>
      rw [hlast'] at hb
      rw [← Option.some.inj hb]
      exact hlast c hlast'
  next =>
    rw [if_neg (by simp)]
    exact lastElement_eq hlast he.2

end Path

namespace Output

/-- The directory of a pending file lies below all that its path passes through. -/
theorem descends_home (path : Bytes) (serial digits : Nat) :
    Path.Descends (Path.elements (forPath path serial digits).home) := by
  have hclean := Path.descends_clean
    (Path.directory path ++ Path.slash :: Path.dot :: Path.baseName path)
  rw [← Path.elements_upToSlash_append] at hclean
  exact (List.pairwise_append.1 hclean).1

/-- A pending file has the name of its destination with a dot in front. -/
theorem text_name {path last : Bytes} {above : List Bytes} (serial digits : Nat)
    (h : Path.elements path = above ++ [last]) (hdot : last ≠ bytes ".") :
    (forPath path serial digits).name.text = Path.dot :: last := by
  have hlast : Path.IsElement last := Path.isElement_of_mem (p := path) (by rw [h]; simp)
  have helements : Path.elements (Path.directory path ++ Path.slash :: Path.dot :: last) =
      Path.elements (Path.directory path) ++ [Path.dot :: last] := by
    rw [Path.elements_append, Path.elements_of_isElement hlast.dot_cons]
  show Path.lastElement (Path.join (Path.directory path) (Path.dot :: Path.baseName path)) = _
  rw [Path.baseName_eq h, Path.join]
  refine Path.lastElement_clean helements ?_ ?_
  · intro he
    exact hlast.1 (List.cons.inj he).2
  · intro he
    exact hdot (List.cons.inj he).2

end Output

end Teeny
