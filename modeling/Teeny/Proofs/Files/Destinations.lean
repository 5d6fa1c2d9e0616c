import Teeny.Proofs.Files.Numbers

/-!
# Outputs whose paths are made of names

A path without empty elements and dots leads to one location in every tree, if it leads anywhere,
and looks only at what stands on the way to it (`AgreesAlong`). The pending file of an output for
such a path has its place beside that location.

So what comes of the operations on such an output depends on what stands along its path and on its
pending file alone, and they change nothing but its destination and its pending file.
-/

namespace Teeny

/-- The location that names lead to. -/
def Location.ofNames (es : List Bytes) : Location := es.map fun e => ⟨e, none⟩

namespace Path

/-! ## Paths made of names -/

/-- Whether an element of a path is the name of something. -/
def IsName (e : Bytes) : Prop := e ≠ [] ∧ e ≠ bytes "." ∧ e ≠ bytes ".."

instance (e : Bytes) : Decidable (IsName e) :=
  inferInstanceAs (Decidable (e ≠ [] ∧ e ≠ bytes "." ∧ e ≠ bytes ".."))

/-- Whether a path is made of names only. -/
def IsOrdinary (p : Bytes) : Prop := ∀ e ∈ split p, IsName e

instance (p : Bytes) : Decidable (IsOrdinary p) :=
  inferInstanceAs (Decidable (∀ e ∈ split p, IsName e))

/-- The location that a path made of names leads to. -/
def location (p : Bytes) : Location := .ofNames (split p)

/-- The location of another name beside it. -/
def beside (p : Bytes) (n : Name) : Location := (location p).dropLast ++ [n]

variable {p : Bytes}

theorem isPlain_location (p : Bytes) : (location p).IsPlain := by
  intro n hn
  obtain ⟨e, -, rfl⟩ := List.mem_map.1 hn
  rfl

theorem location_ne_nil (p : Bytes) : location p ≠ [] := by
  intro h
  exact split_ne_nil p (List.map_eq_nil_iff.1 h)

theorem not_isPlain_beside (p : Bytes) {n : Name} {serial : Nat} (h : n.serial = some serial) :
    ¬ (beside p n).IsPlain := by
  intro hplain
  have hnone := hplain n (by simp [beside])
  rw [h] at hnone
  cases hnone

theorem name_eq_of_beside_eq {q : Bytes} {n n' : Name} (h : beside p n = beside q n') :
    n = n' := by
  have hlast := congrArg List.getLast? h
  rw [beside, beside, List.getLast?_concat, List.getLast?_concat] at hlast
  exact Option.some.inj hlast

theorem beside_ne_nil (p : Bytes) (n : Name) : beside p n ≠ [] := by simp [beside]

theorem exists_split (p : Bytes) : ∃ above last, split p = above ++ [last] :=
  ⟨_, _, (List.dropLast_concat_getLast (split_ne_nil p)).symm⟩

theorem elements_of_isOrdinary (h : IsOrdinary p) : elements p = split p :=
  List.filter_eq_self.2 fun e he => by simpa using (h e he).1

theorem endsInSlash_of_isOrdinary (h : IsOrdinary p) : endsInSlash p = false := by
  rw [endsInSlash, decide_eq_false_iff_not]
  intro hlast
  obtain ⟨a, rfl⟩ := List.getLast?_eq_some_iff.1 hlast
  refine (h [] ?_).1 rfl
  rw [split_append]
  simp [split]

theorem foldl_cleanStep_of_names {es : List Bytes} (h : ∀ e ∈ es, IsName e) (rooted : Bool)
    (above : List Bytes) : es.foldl (cleanStep rooted) above = es.reverse ++ above := by
  induction es generalizing above with
  | nil => rfl
  | cons e es ih =>
    obtain ⟨⟨-, hdot, hdots⟩, hes⟩ := List.forall_mem_cons.1 h
    have hstep : cleanStep rooted above e = e :: above := by
      rw [cleanStep.eq_def, if_neg hdot, if_neg hdots]
    rw [List.foldl_cons, hstep, ih hes, List.reverse_cons, List.append_assoc]
    rfl

/-- Names stay when a path is cleaned, and also when it is cleaned again behind others. -/
theorem foldl_elements_clean (h : ∀ e ∈ elements p, IsName e) (rooted : Bool) :
    (elements (clean p)).foldl (cleanStep rooted) [] = (elements p).reverse := by
  have hkept := foldl_cleanStep_of_names h (isRooted p) []
  rw [List.append_nil] at hkept
  rcases elements_clean_cases p with hclean | ⟨hnil, hclean⟩
  · rw [hclean, hkept, List.reverse_reverse, foldl_cleanStep_of_names h, List.append_nil]
  · rw [hclean, ← hkept, hnil]
    rfl

theorem intercalate_split (p : Bytes) : [slash].intercalate (split p) = p := by
  induction p with
  | nil => rfl
  | cons b p ih =>
    by_cases hb : b = slash
    · rw [split, if_pos hb, hb]
      cases hsplit : split p with
      | nil => exact absurd hsplit (split_ne_nil p)
      | cons e es =>
        rw [List.intercalate_cons_cons, ← hsplit, ih]
        rfl
    · obtain ⟨e, es, hsplit, hcons⟩ := split_cons_of_ne hb p
      rw [hsplit] at ih
      rw [hcons]
      cases es with
      | nil => simpa [List.intercalate] using ih
      | cons e' es =>
        rw [List.intercalate_cons_cons] at ih ⊢
        simp only [List.cons_append, ih]

/-- The last element of a path is what it ends in behind a slash. -/
theorem lastElement_of_split {above : List Bytes} {last : Bytes}
    (h : split p = above ++ [last]) : lastElement p = last := by
  have hslash : slash ∉ last := not_mem_of_mem_split (p := p) (by rw [h]; simp)
  have hjoined := intercalate_split p
  rw [h] at hjoined
  by_cases hnil : above = []
  · have hp : last = p := by simpa [hnil, List.intercalate] using hjoined
    rw [← hp]
    exact lastElement_eq (a := []) (by simp) hslash
  · rw [intercalate_concat hnil, List.append_cons] at hjoined
    rw [← hjoined]
    refine lastElement_eq (fun b hb => ?_) hslash
    rw [List.getLast?_concat] at hb
    exact (Option.some.inj hb).symm

theorem elements_upToSlash (h : IsOrdinary p) {above : List Bytes} {last : Bytes}
    (hsplit : split p = above ++ [last]) : elements (upToSlash p) = above := by
  have hlast : last ∈ elements p := by
    rw [elements_of_isOrdinary h, hsplit]
    simp
  have happend := elements_upToSlash_append p
  rw [elements_of_isOrdinary h, lastElement_of_split hsplit,
    elements_of_isElement (isElement_of_mem hlast), hsplit] at happend
  exact List.append_cancel_right happend

end Path

namespace Output

variable {p : Bytes}

/-- The output that is created for a path with a number of `digits` digits, open or closed. -/
def numbered (p : Bytes) (n digits : Nat) (closed : Bool) : Output :=
  { forPath p n digits with closed }

theorem eq_numbered {o : Output} {n : Nat} (hpath : o.path = p) (hmade : o.IsMade n) :
    o = numbered p n o.digits o.closed := by
  subst hpath
  obtain ⟨path, home, name, digits, closed⟩ := o
  have hhome := hmade.home_eq
  have hname := hmade.name_eq
  dsimp only at hhome hname
  rw [hhome, hname]
  rfl

/-- The pending file of an output lies in the directory that the names before the last lead to. -/
theorem elements_home (h : Path.IsOrdinary p) (serial digits : Nat) :
    Path.elements (forPath p serial digits).home = (Path.split p).dropLast := by
  obtain ⟨above, last, hsplit⟩ := Path.exists_split p
  have helements := (Path.elements_of_isOrdinary h).trans hsplit
  have hup := Path.elements_upToSlash h hsplit
  obtain ⟨hne, hdot, -⟩ := h last (by rw [hsplit]; simp)
  have hlast : Path.IsElement last :=
    Path.isElement_of_mem (p := p) (by rw [helements]; simp)
  -- the pending file has the path of its destination, with a dot before the last name
  generalize hr : Path.directory p ++ Path.slash :: Path.dot :: last = r
  have hkept : (Path.elements r).foldl (Path.cleanStep (Path.isRooted r)) [] =
      (Path.dot :: last) :: above.reverse := by
    have habove : ∀ e ∈ Path.elements (Path.upToSlash p), Path.IsName e := by
      intro e he
      rw [hup] at he
      exact h e (by rw [hsplit]; exact List.mem_append_left _ he)
    rw [← hr, Path.elements_append, Path.elements_of_isElement hlast.dot_cons, List.foldl_append,
      Path.directory, Path.foldl_elements_clean habove, hup, List.foldl_cons, List.foldl_nil,
      Path.cleanStep.eq_def, if_neg, if_neg]
    · exact fun he => hdot (List.cons.inj he).2
    · exact fun he => hne (List.cons.inj he).2
  have hclean : Path.elements (Path.clean r) = above ++ [Path.dot :: last] := by
    rcases Path.elements_clean_cases r with hclean | ⟨hnil, -⟩
    · rw [hclean, hkept, List.reverse_cons, List.reverse_reverse]
    · rw [hkept] at hnil
      cases hnil
  have hstem : Path.join (Path.directory p) (Path.dot :: Path.baseName p) = Path.clean r := by
    rw [Path.baseName_eq helements, Path.join, hr]
  have htext := text_name serial digits helements hdot
  have happend := Path.elements_upToSlash_append (Path.clean r)
  unfold forPath at htext ⊢
  dsimp only at htext ⊢
  rw [hstem] at htext ⊢
  rw [htext, hclean, Path.elements_of_isElement hlast.dot_cons] at happend
  rw [hsplit, List.dropLast_concat]
  exact List.append_cancel_right happend

end Output

/-! ## What paths look at -/

namespace Tree

variable {t t' : Tree} {here k l : Location} {es : List Bytes} {p : Bytes}

/-- Names lead down and nowhere else. -/
theorem eq_of_follow (hes : ∀ e ∈ es, Path.IsName e) (h : t.follow here es = .ok l) :
    l = here ++ .ofNames es := by
  induction es generalizing here with
  | nil =>
    cases h
    exact (List.append_nil _).symm
  | cons e es ih =>
    obtain ⟨⟨-, hdot, hdots⟩, hes⟩ := List.forall_mem_cons.1 hes
    obtain ⟨-, ⟨he, -⟩ | ⟨he, -⟩ | ⟨-, -, -, -, hrest⟩⟩ := follow_cons_eq_ok_iff.1 h
    · exact absurd he hdot
    · exact absurd he hdots
    · rw [ih hes hrest, List.append_assoc]
      rfl

/-- Whether two trees have the same entries on the way to a location and there. -/
def AgreesAlong (t t' : Tree) (l : Location) : Prop := ∀ k, k <+: l → t.get? k = t'.get? k

namespace AgreesAlong

theorem mono (h : t.AgreesAlong t' l) (hk : k <+: l) : t.AgreesAlong t' k :=
  fun k' hk' => h k' (hk'.trans hk)

theorem get?_eq (h : t.AgreesAlong t' l) : t.get? l = t'.get? l := h l (List.prefix_refl l)

/-- Pending files do not matter. -/
theorem of_agrees {u u' : Tree} (h : t.AgreesAlong t' l) (hl : l.IsPlain) (hu : t.Agrees u)
    (hu' : t'.Agrees u') : u.AgreesAlong u' l := by
  intro k hk
  have hplain : Location.IsPlain k := fun n hn => hl n (hk.subset hn)
  rw [← hu k hplain, h k hk, hu' k hplain]

theorem follow_eq (hes : ∀ e ∈ es, Path.IsName e) (h : t.AgreesAlong t' (here ++ .ofNames es)) :
    t.follow here es = t'.follow here es := by
  induction es generalizing here with
  | nil => rfl
  | cons e es ih =>
    obtain ⟨⟨-, hdot, hdots⟩, hes⟩ := List.forall_mem_cons.1 hes
    have hdown : here ++ [⟨e, none⟩] ++ .ofNames es = here ++ .ofNames (e :: es) :=
      List.append_assoc ..
    rw [← hdown] at h
    have hnext : t.get? (here ++ [⟨e, none⟩]) = t'.get? (here ++ [⟨e, none⟩]) :=
      h _ (List.prefix_append ..)
    have hhere : t.get? here = t'.get? here :=
      h _ ((List.prefix_append here _).trans (List.prefix_append ..))
    rw [follow, follow, if_neg hdot, if_neg hdot, if_neg hdots, if_neg hdots]
    dsimp only
    rw [hhere, hnext, ih hes h]

theorem directoryAt_eq (hes : ∀ e ∈ Path.elements p, Path.IsName e)
    (h : t.AgreesAlong t' (.ofNames (Path.elements p))) : t.directoryAt p = t'.directoryAt p := by
  unfold directoryAt
  rw [follow_eq hes h]
  cases hfollow : t'.follow [] (Path.elements p) with
  | error fault => rfl
  | ok l =>
    rw [eq_of_follow hes hfollow]
    show (if t.get? _ = _ then _ else _) = (if t'.get? _ = _ then _ else _)
    rw [List.nil_append, h.get?_eq]

end AgreesAlong

section
variable (hp : Path.IsOrdinary p)
include hp

theorem locate_eq_of_isOrdinary (t : Tree) :
    t.locate p =
      if 0 ∈ p then .error .invalid
      else if Path.longest < p.length then .error .tooLong
      else t.follow [] (Path.split p) := by
  have hne : p ≠ [] := by
    rintro rfl
    exact (hp [] (by simp [Path.split])).1 rfl
  rw [locate, if_neg hne, Path.endsInSlash_of_isOrdinary hp, Path.elements_of_isOrdinary hp]
  rfl

theorem eq_location_of_locate (h : t.locate p = .ok l) : l = Path.location p := by
  rw [locate_eq_of_isOrdinary hp] at h
  split at h
  next => cases h
  next =>
    split at h
    next => cases h
    next => exact eq_of_follow hp h

theorem eq_dropLast_of_directoryAt {serial digits : Nat}
    (h : t.directoryAt (Output.forPath p serial digits).home = .ok l) :
    l = (Path.location p).dropLast := by
  have hfollow := (directoryAt_eq_ok_iff.1 h).1
  rw [Output.elements_home hp] at hfollow
  rw [eq_of_follow (fun e he => hp e (List.dropLast_subset _ he)) hfollow, List.nil_append,
    Path.location, Location.ofNames, Location.ofNames, List.map_dropLast]

/-- The destination is beside the pending file. -/
theorem placeFor_eq_of_isOrdinary (t : Tree) :
    t.placeFor p = (t.directoryAt (Output.forPath p 0 0).home).map fun _ => Path.location p := by
  obtain ⟨above, last, hsplit⟩ := Path.exists_split p
  have hhome := Output.elements_home hp 0 0
  have hlocation : Path.location p = .ofNames (Path.split p) := rfl
  rw [hsplit, List.dropLast_concat] at hhome
  rw [hsplit] at hlocation
  rw [placeFor, Path.elements_of_isOrdinary hp, hsplit, List.reverse_concat, directoryAt, hhome]
  dsimp only
  rw [List.reverse_reverse]
  cases hfollow : t.follow [] above with
  | error fault => rfl
  | ok here =>
    have hhere := eq_of_follow (fun e he => hp e (by rw [hsplit]; simp [he])) hfollow
    simp only [bind, Except.bind]
    split
    next =>
      rw [hlocation, hhere]
      simp [Except.map, pure, Except.pure, Location.ofNames]
    next => rfl

variable (h : t.AgreesAlong t' (Path.location p))
include h

theorem AgreesAlong.locate_eq : t.locate p = t'.locate p := by
  have hfollow : t.follow [] (Path.split p) = t'.follow [] (Path.split p) := follow_eq hp h
  rw [locate_eq_of_isOrdinary hp, locate_eq_of_isOrdinary hp, hfollow]

theorem AgreesAlong.isDirectory_eq : t.isDirectory p = t'.isDirectory p := by
  unfold isDirectory
  rw [locate_eq hp h]
  cases hlocate : t'.locate p with
  | error fault => rfl
  | ok l =>
    obtain rfl := eq_location_of_locate hp hlocate
    dsimp only
    rw [h.get?_eq]

theorem AgreesAlong.existingMode_eq : t.existingMode p = t'.existingMode p := by
  unfold existingMode
  rw [locate_eq hp h]
  cases hlocate : t'.locate p with
  | error fault => cases fault <;> rfl
  | ok l =>
    obtain rfl := eq_location_of_locate hp hlocate
    dsimp only
    rw [h.get?_eq]

theorem AgreesAlong.directoryAt_home_eq (serial digits : Nat) :
    t.directoryAt (Output.forPath p serial digits).home =
      t'.directoryAt (Output.forPath p serial digits).home := by
  have hhome := Output.elements_home hp serial digits
  refine directoryAt_eq (fun e he => ?_) (h.mono ?_)
  · rw [hhome] at he
    exact hp e (List.dropLast_subset _ he)
  · rw [hhome, Location.ofNames, List.map_dropLast]
    exact List.dropLast_prefix _

end

/-! ## What comes of operations -/

/-- The place of the pending file of an output, which is named for its number. -/
abbrev pendingAt (p : Bytes) (n : Nat) : Location := Path.beside p (Output.forPath p n 0).name

/-- Whether the pending file of an output for a path has a directory and a name that fits. -/
def hasPlace (t : Tree) (p : Bytes) (digits : Nat) : Except FileFault Unit :=
  (t.directoryFor (Output.forPath p 0 digits).home (Output.forPath p 0 digits).size).map
    fun _ => ()

theorem eq_of_map_const {ε α β : Type} {x : Except ε α} {b c : β}
    (h : x.map (fun _ => b) = .ok c) : c = b := by
  cases x with
  | error e => cases h
  | ok a => exact (Except.ok.inj h).symm

section
variable {n n' digits : Nat} {closed : Bool} (hp : Path.IsOrdinary p)
include hp

theorem pendingPlace_numbered (t : Tree) (n digits : Nat) (closed : Bool) :
    t.pendingPlace (.numbered p n digits closed) =
      (t.hasPlace p digits).map fun _ => pendingAt p n := by
  have hhome : (Output.numbered p n digits closed).home = (Output.forPath p 0 digits).home := rfl
  have hsize : (Output.numbered p n digits closed).size = (Output.forPath p 0 digits).size := rfl
  rw [pendingPlace_eq_map, hhome, hsize, hasPlace]
  cases hdirectory : t.directoryFor (Output.forPath p 0 digits).home
      (Output.forPath p 0 digits).size with
  | error fault => rfl
  | ok directory =>
    have hat : t.directoryAt (Output.forPath p 0 digits).home = .ok directory := by
      unfold directoryFor at hdirectory
      split at hdirectory
      next => cases hdirectory
      next =>
        split at hdirectory
        next => cases hdirectory
        next heq =>
          split at hdirectory
          next => cases hdirectory
          next =>
            cases hdirectory
            exact heq
    rw [eq_dropLast_of_directoryAt hp hat]
    rfl

theorem eq_pendingAt (h : t.pendingPlace (.numbered p n digits closed) = .ok l) :
    l = pendingAt p n := by
  rw [pendingPlace_numbered hp] at h
  exact eq_of_map_const h

/-- Putting an output in place changes its destination and its pending file. -/
theorem get?_of_replace (h : t.replace (.numbered p n digits closed) = .ok t')
    (hl : l ≠ Path.location p) (hpending : l ≠ pendingAt p n) : t'.get? l = t.get? l := by
  obtain ⟨-, -, place, target, entry, hplace, htarget, -, rfl⟩ := replace_eq_ok_iff.1 h
  obtain rfl := eq_pendingAt hp hplace
  obtain rfl : target = Path.location p :=
    eq_of_map_const ((placeFor_eq_of_isOrdinary hp t).symm.trans htarget)
  rw [get?_put _ _ _ _ (Path.location_ne_nil p), get?_erase _ _ _ (Path.beside_ne_nil _ _),
    if_neg hl, if_neg hpending]

variable (h : t.AgreesAlong t' (Path.location p))
include h

theorem AgreesAlong.hasPlace_eq : t.hasPlace p digits = t'.hasPlace p digits := by
  unfold hasPlace directoryFor
  rw [directoryAt_home_eq hp h]

variable (hentry : t.get? (pendingAt p n) = t'.get? (pendingAt p n'))
include hentry

theorem get?_append_eq (data : Bytes) :
    (t.append (.numbered p n digits closed) data).get? (pendingAt p n) =
      (t'.append (.numbered p n' digits closed) data).get? (pendingAt p n') := by
  unfold append
  rw [pendingPlace_numbered hp, pendingPlace_numbered hp, AgreesAlong.hasPlace_eq hp h]
  cases t'.hasPlace p digits with
  | error fault => exact hentry
  | ok =>
    simp only [Except.map]
    rw [hentry]
    cases hget : t'.get? (pendingAt p n') with
    | none => simp only [hentry, hget]
    | some entry =>
      cases entry with
      | directory => simp only [hentry, hget]
      | file data' mode =>
        simp only
        rw [get?_put _ _ _ _ (Path.beside_ne_nil _ _), get?_put _ _ _ _ (Path.beside_ne_nil _ _),
          if_pos rfl, if_pos rfl]

theorem get?_discard_eq :
    (t.discard (.numbered p n digits closed)).get? (pendingAt p n) =
      (t'.discard (.numbered p n' digits closed)).get? (pendingAt p n') := by
  unfold discard
  rw [pendingPlace_numbered hp, pendingPlace_numbered hp, AgreesAlong.hasPlace_eq hp h]
  cases t'.hasPlace p digits with
  | error fault => exact hentry
  | ok =>
    simp only [Except.map]
    rw [get?_erase _ _ _ (Path.beside_ne_nil _ _), get?_erase _ _ _ (Path.beside_ne_nil _ _),
      if_pos rfl, if_pos rfl]

/-- Outputs for one path are put in place alike in trees that agree along the path, if their pending
files hold the same. -/
theorem replace_cases :
    (∃ fault, t.replace (.numbered p n digits closed) = .error fault ∧
        t'.replace (.numbered p n' digits closed) = .error fault) ∨
      ∃ entry,
        t.replace (.numbered p n digits closed) =
          .ok ((t.erase (pendingAt p n)).put (Path.location p) entry) ∧
        t'.replace (.numbered p n' digits closed) =
          .ok ((t'.erase (pendingAt p n')).put (Path.location p) entry) := by
  have hpath : ∀ n, (Output.numbered p n digits closed).path = p := fun _ => rfl
  unfold replace
  rw [pendingPlace_numbered hp, pendingPlace_numbered hp, hpath, hpath,
    AgreesAlong.hasPlace_eq hp h, AgreesAlong.isDirectory_eq hp h, placeFor_eq_of_isOrdinary hp,
    placeFor_eq_of_isOrdinary hp, AgreesAlong.directoryAt_home_eq hp h,
    Path.endsInSlash_of_isOrdinary hp]
  cases t'.hasPlace p digits with
  | error fault => cases t'.isDirectory p <;> exact Or.inl ⟨fault, rfl, rfl⟩
  | ok =>
    simp only [Except.map, bind, Except.bind]
    rw [hentry]
    cases t'.isDirectory p with
    | true => exact Or.inl ⟨_, rfl, rfl⟩
    | false =>
      cases t'.directoryAt (Output.forPath p 0 0).home with
      | error fault => exact Or.inl ⟨fault, rfl, rfl⟩
      | ok =>
        cases t'.get? (pendingAt p n') with
        | none => exact Or.inl ⟨.absent, rfl, rfl⟩
        | some entry => exact Or.inr ⟨entry, rfl, rfl⟩

omit hentry hp in
/-- Trees that agree along a path do so when the same is put there. -/
theorem AgreesAlong.replaced (entry : Entry) :
    ((t.erase (pendingAt p n)).put (Path.location p) entry).AgreesAlong
      ((t'.erase (pendingAt p n')).put (Path.location p) entry) (Path.location p) := by
  intro k hk
  have hplain : Location.IsPlain k := fun m hm => Path.isPlain_location p m (hk.subset hm)
  have hne : ∀ n, k ≠ pendingAt p n := by
    rintro n rfl
    exact Path.not_isPlain_beside p rfl hplain
  rw [get?_put _ _ _ _ (Path.location_ne_nil p), get?_put _ _ _ _ (Path.location_ne_nil p),
    get?_erase _ _ _ (Path.beside_ne_nil _ _), get?_erase _ _ _ (Path.beside_ne_nil _ _),
    if_neg (hne n), if_neg (hne n'), h k hk]

end

/-- No pending file is left of an output that is put in place. -/
theorem get?_replaced (t : Tree) (p : Bytes) (n : Nat) (entry : Entry) :
    ((t.erase (pendingAt p n)).put (Path.location p) entry).get? (pendingAt p n) = none := by
  rw [get?_put _ _ _ _ (Path.location_ne_nil p), get?_erase _ _ _ (Path.beside_ne_nil _ _),
    if_neg, if_pos rfl]
  intro heq
  have hplain := Path.isPlain_location p
  rw [← heq] at hplain
  exact Path.not_isPlain_beside p rfl hplain

end Tree

/-- The volume in which an output is created. -/
def Volume.begun (v : Volume) (p : Bytes) (mode : UInt16) : Volume :=
  { v with
    tree := v.tree.put (Tree.pendingAt p v.serial) (.file [] mode)
    serial := v.serial + 1 }

/-- Outputs for one path are created alike on volumes that agree along the path. -/
theorem Volume.create_cases {v v' : Volume} {p : Bytes} (hp : Path.IsOrdinary p)
    (h : v.tree.AgreesAlong v'.tree (Path.location p)) (humask : v.umask = v'.umask)
    (htag : v.tag = v'.tag) (digits : Nat) :
    (∃ error, v.create p digits = .error error ∧ v'.create p digits = .error error) ∨
      ∃ mode, v.create p digits = .ok (.numbered p v.serial digits false, v.begun p mode) ∧
        v'.create p digits = .ok (.numbered p v'.serial digits false, v'.begun p mode) := by
  have hpending : (Output.forPath p v.serial digits).pendingPath v.tag =
      (Output.forPath p v'.serial digits).pendingPath v'.tag := congrArg _ htag
  have hmode : v.newMode = v'.newMode := by rw [newMode, newMode, humask]
  unfold create
  rw [Tree.AgreesAlong.existingMode_eq hp h]
  cases v'.tree.existingMode p with
  | error fault => exact Or.inl ⟨_, rfl, rfl⟩
  | ok existing =>
    have hplace : ∀ (t : Tree) n, t.pendingPlace (Output.forPath p n digits) =
        (t.hasPlace p digits).map fun _ => Tree.pendingAt p n :=
      fun t n => t.pendingPlace_numbered hp n digits false
    dsimp only
    rw [hplace, hplace, Tree.AgreesAlong.hasPlace_eq hp h]
    cases v'.tree.hasPlace p digits with
    | error fault =>
      refine Or.inl ⟨_, rfl, ?_⟩
      rw [hpending]
      rfl
    | ok =>
      refine Or.inr ⟨_, rfl, ?_⟩
      rw [hmode]
      rfl

end Teeny
