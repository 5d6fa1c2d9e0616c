import Teeny.Files.Session
import Teeny.Proofs.Files.Pending

/-!
# Outputs that are written side by side

A session is compared with the stories of its outputs, which are told from the operations and their
answers alone (`Book`): what an output was created for, with which permissions, what was written to
it since, and whether it is still open. Along every run the outputs are as their stories say
(`Kept`): each pending file in the tree is that of one open output, and holds what was written to
it. One operation keeps this (`kept_step`), and so a run does (`kept_run`).
-/

namespace Teeny

/-! ## Stories -/

/-- What has happened to an output. -/
structure Story where
  path : Bytes
  /-- The permissions that it got when it was created. -/
  mode : UInt16
  /-- What has been written to it. -/
  data : Bytes
  isOpen : Bool
  deriving DecidableEq

/-- The stories of outputs by their numbers. -/
abbrev Book := Int → Option Story

namespace Book

/-- The book before the first operation. -/
def empty : Book := fun _ => none

/-- Sets the story of one output. -/
def set (book : Book) (id : Int) (story : Option Story) : Book :=
  fun i => if i = id then story else book i

/-- Enters one operation with its answer. The volume is the one before the operation. -/
def enter (book : Book) (v : Volume) : Action → Answer → Book
  | .create id path _, .path _ => book.set id (some ⟨path, v.modeFor path, [], true⟩)
  | .write id data, .written _ =>
    book.set id ((book id).map fun story => { story with data := story.data ++ data })
  | .commit id, _ => book.set id ((book id).map fun story => { story with isOpen := false })
  | .abort id, _ => book.set id ((book id).map fun story => { story with isOpen := false })
  | _, _ => book

/-- The stories after operations in order. -/
def along (book : Book) (s : Session) : List Action → Book
  | [] => book
  | action :: actions =>
    along (book.enter s.volume action (s.step action).2) (s.step action).1 actions

theorem set_self (book : Book) (id : Int) (story : Option Story) : book.set id story id = story :=
  if_pos rfl

theorem set_of_ne (book : Book) {id i : Int} (h : i ≠ id) (story : Option Story) :
    book.set id story i = book i :=
  if_neg h

theorem set_none {book : Book} {id : Int} (h : book id = none) : book.set id none = book := by
  funext i
  by_cases hi : i = id
  · rw [hi, set_self, h]
  · exact set_of_ne book hi none

end Book

namespace Session

theorem get?_set_self (s : Session) (id : Int) (o : Output) (v : Volume) :
    (s.set id o v).get? id = some o :=
  List.lookup_cons_self

theorem get?_set_of_ne (s : Session) {id i : Int} (hi : i ≠ id) (o : Output) (v : Volume) :
    (s.set id o v).get? i = s.get? i := by
  have hfilter : ∀ es : List (Int × Output),
      (es.filter fun e => e.1 ≠ id).lookup i = es.lookup i := by
    intro es
    induction es with
    | nil => rfl
    | cons e es ih =>
      obtain ⟨k, x⟩ := e
      by_cases hk : k = id
      · have hik : (i == k) = false := by
          rw [hk]
          exact beq_false_of_ne hi
        rw [List.filter_cons_of_neg (by simpa using hk), ih, List.lookup_cons, hik]
      · rw [List.filter_cons_of_pos (by simpa using hk), List.lookup_cons, List.lookup_cons, ih]
  unfold get? set
  dsimp only
  rw [List.lookup_cons, beq_false_of_ne hi]
  exact hfilter s.outputs

/-! ## What is kept -/

/-- Whether outputs are as their stories say, and the pending files are theirs. -/
structure Kept (outputs : Int → Option Output) (v : Volume) (book : Book) : Prop where
  untold : ∀ id, outputs id = none → book id = none
  told : ∀ id o, outputs id = some o → ∃ story serial, book id = some story ∧
    o.path = story.path ∧ o.closed = !story.isOpen ∧ o.IsMade serial ∧ serial < v.serial
  distinct : ∀ id id' o o', outputs id = some o → outputs id' = some o' → o.name = o'.name →
    id = id'
  owned : ∀ l entry, ¬ Location.IsPlain l → v.tree.get? l = some entry →
    ∃ id o story, outputs id = some o ∧ book id = some story ∧ story.isOpen = true ∧
      v.tree.pendingPlace o = .ok l ∧ entry = .file story.data story.mode

namespace Kept

variable {outputs outputs' : Int → Option Output} {v v' : Volume} {book : Book} {id : Int}
  {o : Output} {story : Story} {l : Location}

/-- A file with the pending name of an output is the pending file of this output. -/
theorem of_getLast? (h : Kept outputs v book) (ho : outputs id = some o)
    (hstory : book id = some story) (hlast : l.getLast? = some o.name) {entry : Entry}
    (hl : v.tree.get? l = some entry) :
    story.isOpen = true ∧ v.tree.pendingPlace o = .ok l ∧
      entry = .file story.data story.mode := by
  obtain ⟨-, serial, -, -, -, hmade, -⟩ := h.told id o ho
  have hplain : ¬ Location.IsPlain l := by
    intro hplain
    have hnone := hplain o.name (List.mem_of_getLast? hlast)
    rw [hmade.serial_eq] at hnone
    cases hnone
  obtain ⟨id', o', story', ho', hstory', hopen, hplace, hentry⟩ := h.owned l entry hplain hl
  have hname : o'.name = o.name := by
    have hlast' := Tree.getLast?_of_pendingPlace hplace
    rw [hlast] at hlast'
    exact (Option.some.inj hlast').symm
  obtain rfl := h.distinct id' id o' o ho' ho hname
  rw [hstory] at hstory'
  cases hstory'
  rw [ho] at ho'
  cases ho'
  exact ⟨hopen, hplace, hentry⟩

/-- What stands where the pending file of an output belongs is that file. -/
theorem entry_eq (h : Kept outputs v book) (ho : outputs id = some o)
    (hstory : book id = some story) (hplace : v.tree.pendingPlace o = .ok l) {entry : Entry}
    (hl : v.tree.get? l = some entry) :
    story.isOpen = true ∧ entry = .file story.data story.mode := by
  obtain ⟨hopen, -, hentry⟩ := h.of_getLast? ho hstory (Tree.getLast?_of_pendingPlace hplace) hl
  exact ⟨hopen, hentry⟩

/-- One output and its story change, and each pending file that is left is that of this output or
one of the others that stays. -/
theorem set (h : Kept outputs v book) {serial : Nat} (hid : outputs' id = some o)
    (hother : ∀ i, i ≠ id → outputs' i = outputs i) (hpath : o.path = story.path)
    (hclosed : o.closed = !story.isOpen) (hmade : o.IsMade serial) (hserial : serial < v'.serial)
    (hle : v.serial ≤ v'.serial)
    (hname : ∀ i x, i ≠ id → outputs i = some x → x.name ≠ o.name)
    (hpending : ∀ l entry, ¬ Location.IsPlain l → v'.tree.get? l = some entry →
      story.isOpen = true ∧ v'.tree.pendingPlace o = .ok l ∧
          entry = .file story.data story.mode ∨
        (∀ earlier, outputs id = some earlier → v.tree.pendingPlace earlier ≠ .ok l) ∧
          v.tree.Stays v'.tree l) :
    Kept outputs' v' (book.set id (some story)) where
  untold i hi := by
    have hne : i ≠ id := by
      rintro rfl
      rw [hid] at hi
      cases hi
    rw [hother i hne] at hi
    rw [Book.set_of_ne book hne]
    exact h.untold i hi
  told i x hx := by
    by_cases hi : i = id
    · subst hi
      rw [hid] at hx
      cases hx
      exact ⟨story, serial, Book.set_self .., hpath, hclosed, hmade, hserial⟩
    · rw [hother i hi] at hx
      rw [Book.set_of_ne book hi]
      obtain ⟨story', serial', hstory', hpath', hclosed', hmade', hserial'⟩ := h.told i x hx
      exact ⟨story', serial', hstory', hpath', hclosed', hmade', Nat.lt_of_lt_of_le hserial' hle⟩
  distinct i i' x x' hx hx' hxx' := by
    by_cases hi : i = id
    · by_cases hi' : i' = id
      · rw [hi, hi']
      · rw [hi, hid] at hx
        cases hx
        rw [hother i' hi'] at hx'
        exact absurd hxx'.symm (hname i' x' hi' hx')
    · rw [hother i hi] at hx
      by_cases hi' : i' = id
      · rw [hi', hid] at hx'
        cases hx'
        exact absurd hxx' (hname i x hi hx)
      · rw [hother i' hi'] at hx'
        exact h.distinct i i' x x' hx hx' hxx'
  owned l entry hl hentry := by
    rcases hpending l entry hl hentry with ⟨hopen, hplace, heq⟩ | ⟨hnot, hstays⟩
    · exact ⟨id, o, story, hid, Book.set_self .., hopen, hplace, heq⟩
    · rw [hstays.get?_eq] at hentry
      obtain ⟨i, x, story', hx, hstory', hopen', hplace', heq⟩ := h.owned l entry hl hentry
      have hi : i ≠ id := by
        rintro rfl
        exact hnot x hx hplace'
      obtain ⟨-, serial', -, -, -, hmade', -⟩ := h.told i x hx
      refine ⟨i, x, story', ?_, ?_, hopen', hstays.pendingPlace_eq hmade' hplace', heq⟩
      · rw [hother i hi, hx]
      · rw [Book.set_of_ne book hi, hstory']

theorem name_ne (h : Kept outputs v book) (ho : outputs id = some o) :
    ∀ i x, i ≠ id → outputs i = some x → x.name ≠ o.name :=
  fun i x hi hx hname => hi (h.distinct i id x o hx ho hname)

/-- The number of a new output is larger than all others. -/
theorem name_ne_of_create (h : Kept outputs v book) {path : Bytes} {digits : Nat}
    (hcreate : v.create path digits = .ok (o, v')) :
    ∀ i x, outputs i = some x → x.name ≠ o.name := by
  intro i x hx hname
  obtain ⟨-, serial, -, -, -, hmade, hlt⟩ := h.told i x hx
  have hserial := hmade.serial_eq
  rw [hname, (Volume.isMade_of_create hcreate).2.2.serial_eq] at hserial
  exact Nat.lt_irrefl _ (Option.some.inj hserial ▸ hlt)

/-- No pending file is left where a closed output had its own. -/
theorem pendingPlace_ne (h : Kept outputs v book) (ho : outputs id = some o)
    (hclosed : o.closed = true) (hpresent : v.tree.get? l ≠ none) :
    v.tree.pendingPlace o ≠ .ok l := by
  intro hplace
  obtain ⟨entry, hl⟩ := Option.ne_none_iff_exists'.1 hpresent
  obtain ⟨story, -, hstory, -, hopen, -⟩ := h.told id o ho
  rw [hclosed, (h.entry_eq ho hstory hplace hl).1] at hopen
  cases hopen

/-- An output is closed, and its pending file goes while others stay. -/
theorem close (h : Kept outputs v book) (ho : outputs id = some o)
    (hid : outputs' id = some { o with closed := true })
    (hother : ∀ i, i ≠ id → outputs' i = outputs i) (hserial : v'.serial = v.serial)
    (hpending : ∀ l, ¬ Location.IsPlain l → v'.tree.get? l ≠ none →
      v.tree.pendingPlace o ≠ .ok l ∧ v.tree.Stays v'.tree l) :
    Kept outputs' v' (book.set id ((book id).map fun story => { story with isOpen := false })) := by
  obtain ⟨story, serial, hstory, hpath, -, hmade, hlt⟩ := h.told id o ho
  rw [hstory]
  refine h.set hid hother hpath rfl hmade.close (hserial ▸ hlt) (Nat.le_of_eq hserial.symm)
    (fun i x hi hx => h.name_ne ho i x hi hx) ?_
  intro l entry hl hentry
  obtain ⟨hne, hstays⟩ := hpending l hl (by rw [hentry]; simp)
  refine Or.inr ⟨fun earlier he => ?_, hstays⟩
  rw [ho] at he
  cases he
  exact hne

/-- Others change the tree, and pending files that are left stay. -/
theorem of_stays (h : Kept outputs v book) {t : Tree}
    (hpending : ∀ l, ¬ Location.IsPlain l → t.get? l ≠ none → v.tree.Stays t l) :
    Kept outputs { v with tree := t } book where
  untold := h.untold
  told := h.told
  distinct := h.distinct
  owned l entry hl hentry := by
    have hstays := hpending l hl (by rw [hentry]; simp)
    rw [hstays.get?_eq] at hentry
    obtain ⟨id, o, story, ho, hstory, hopen, hplace, heq⟩ := h.owned l entry hl hentry
    obtain ⟨-, serial, -, -, -, hmade, -⟩ := h.told id o ho
    exact ⟨id, o, story, ho, hstory, hopen, hstays.pendingPlace_eq hmade hplace, heq⟩

end Kept

/-! ## Operations and their answers -/

variable {s : Session} {book : Book} {id : Int} {o : Output}

theorem step_create_cases (s : Session) (id : Int) (path : Bytes) (digits : Nat) :
    (∃ e, s.step (.create id path digits) = (s, .failed e)) ∨
      ∃ o v, s.volume.create path digits = .ok (o, v) ∧
        s.step (.create id path digits) =
          (s.set id o (match s.get? id with
            | some earlier => (v.abort earlier).2
            | none => v), .path path) := by
  unfold step
  dsimp only
  cases hcreate : s.volume.create path digits with
  | error e => exact Or.inl ⟨e, rfl⟩
  | ok created => exact Or.inr ⟨created.1, created.2, rfl, rfl⟩

theorem step_write_unknown (ho : s.get? id = none) (data : Bytes) :
    s.step (.write id data) = (s, .unknown id) := by
  simp [step, withOutput, ho]

theorem step_commit_unknown (ho : s.get? id = none) :
    s.step (.commit id) = (s, .unknown id) := by
  simp [step, withOutput, ho]

theorem step_abort_unknown (ho : s.get? id = none) : s.step (.abort id) = (s, .unknown id) := by
  simp [step, withOutput, ho]

theorem step_write (ho : s.get? id = some o) (data : Bytes) :
    s.step (.write id data) =
      if o.closed then (s, .unwritten .closed)
      else ({ s with volume := { s.volume with tree := s.volume.tree.append o data } },
        .written data.length) := by
  cases hc : o.closed <;> simp [step, withOutput, ho, Volume.write, hc]

theorem step_abort (ho : s.get? id = some o) :
    s.step (.abort id) =
      (s.set id { o with closed := true }
        (if o.closed then s.volume else { s.volume with tree := s.volume.tree.discard o }),
        .done) := by
  obtain ⟨path, home, name, digits, closed⟩ := o
  cases closed <;> simp [step, withOutput, ho, Volume.abort]

theorem step_commit_cases (ho : s.get? id = some o) :
    (o.closed = true ∧ s.step (.commit id) = (s.set id o s.volume, .failed .closed)) ∨
      (o.closed = false ∧ ∃ t, s.volume.tree.replace o = .ok t ∧
        s.step (.commit id) =
          (s.set id { o with closed := true } { s.volume with tree := t }, .done)) ∨
      o.closed = false ∧ ∃ fault, s.volume.tree.replace o = .error fault ∧
        s.step (.commit id) =
          (s.set id { o with closed := true } { s.volume with tree := s.volume.tree.discard o },
            .failed (.unreplaced (.rename (o.pendingPath s.volume.tag) o.path fault))) := by
  cases hc : o.closed with
  | true => exact Or.inl ⟨rfl, by simp [step, withOutput, ho, Volume.commit, hc]⟩
  | false =>
    rcases s.volume.commit_cases hc with ⟨t, ht, hcommit⟩ | ⟨fault, hfault, hcommit⟩
    · exact Or.inr (Or.inl ⟨rfl, t, ht, by simp [step, withOutput, ho, hcommit]⟩)
    · exact Or.inr (Or.inr ⟨rfl, fault, hfault, by simp only [step, withOutput, ho, hcommit]⟩)

theorem step_path (s : Session) (id : Int) : (s.step (.path id)).1 = s := by
  cases ho : s.get? id <;> simp [step, withOutput, ho]

theorem step_list (s : Session) : (s.step .list).1 = s := by
  cases hlist : s.volume.list <;> simp [step, hlist]

/-! ## One operation -/

theorem kept_write (h : Kept s.get? s.volume book) (ho : s.get? id = some o) (data : Bytes) :
    Kept (s.step (.write id data)).1.get? (s.step (.write id data)).1.volume
      (book.enter s.volume (.write id data) (s.step (.write id data)).2) := by
  obtain ⟨story, serial, hstory, hpath, hclosed, hmade, hserial⟩ := h.told id o ho
  rw [step_write ho]
  cases hc : o.closed with
  | true => exact h
  | false =>
    show Kept s.get? { s.volume with tree := s.volume.tree.append o data }
      (book.set id ((book id).map _))
    rw [hstory]
    refine h.set ho (fun i _ => rfl) hpath hclosed hmade hserial (Nat.le_refl _)
      (h.name_ne ho) ?_
    intro l entry hl (hentry : (s.volume.tree.append o data).get? l = some entry)
    have hagrees := Tree.agrees_append hmade s.volume.tree data
    by_cases hplace : s.volume.tree.pendingPlace o = .ok l
    · -- the entry is the pending file of this output, with the data added
      left
      rcases s.volume.tree.append_cases o data with
        ⟨place, written, mode, hplace', hget, heq⟩ | ⟨heq, hnone⟩
      · rw [hplace] at hplace'
        cases hplace'
        obtain ⟨hopen, hfile⟩ := h.entry_eq ho hstory hplace hget
        cases hfile
        refine ⟨hopen, (hagrees.pendingPlace_eq o).symm.trans hplace, ?_⟩
        have hnew := Tree.get?_put s.volume.tree l l (.file (story.data ++ data) story.mode)
          (Tree.ne_nil_of_pendingPlace hplace)
        rw [if_pos rfl, ← heq, hentry] at hnew
        exact Option.some.inj hnew
      · rw [heq] at hentry
        obtain ⟨-, hfile⟩ := h.entry_eq ho hstory hplace hentry
        exact absurd (hfile ▸ hentry) (hnone l hplace _ _)
    · refine Or.inr ⟨fun earlier he => ?_, .of_agrees hagrees ?_⟩
      · rw [ho] at he
        cases he
        exact hplace
      · exact Tree.get?_append_of_ne hplace

theorem kept_commit (h : Kept s.get? s.volume book) (ho : s.get? id = some o) :
    Kept (s.step (.commit id)).1.get? (s.step (.commit id)).1.volume
      (book.enter s.volume (.commit id) (s.step (.commit id)).2) := by
  obtain ⟨-, serial, -, -, -, hmade, -⟩ := h.told id o ho
  rcases step_commit_cases ho with ⟨hc, hstep⟩ | ⟨-, t, ht, hstep⟩ | ⟨-, fault, -, hstep⟩
  · rw [hstep]
    refine h.close ho ?_ (fun i hi => s.get?_set_of_ne hi ..) rfl ?_
    · rw [get?_set_self, ← hc]
    · exact fun l _ hpresent => ⟨h.pendingPlace_ne ho hc hpresent, .of_agrees (.refl _) rfl⟩
  · rw [hstep]
    refine h.close ho (s.get?_set_self ..) (fun i hi => s.get?_set_of_ne hi ..) rfl ?_
    exact fun l hl hpresent => Tree.stays_of_replace hmade ht hl hpresent
  · rw [hstep]
    refine h.close ho (s.get?_set_self ..) (fun i hi => s.get?_set_of_ne hi ..) rfl ?_
    exact fun l _ hpresent => Tree.stays_of_discard hmade hpresent

theorem kept_abort (h : Kept s.get? s.volume book) (ho : s.get? id = some o) :
    Kept (s.step (.abort id)).1.get? (s.step (.abort id)).1.volume
      (book.enter s.volume (.abort id) (s.step (.abort id)).2) := by
  obtain ⟨-, serial, -, -, -, hmade, -⟩ := h.told id o ho
  rw [step_abort ho]
  refine h.close ho (s.get?_set_self ..) (fun i hi => s.get?_set_of_ne hi ..) ?_ ?_
  · show (if o.closed then s.volume else _).serial = _
    split <;> rfl
  · intro l _ hpresent
    cases hc : o.closed with
    | true =>
      rw [hc] at hpresent
      exact ⟨h.pendingPlace_ne ho hc hpresent, .of_agrees (.refl _) rfl⟩
    | false =>
      rw [hc] at hpresent
      exact Tree.stays_of_discard hmade hpresent

/-- Aborting the output that has had a number, after a change that has left its pending file
alone. -/
theorem abort_earlier {v w : Volume} (h : Kept s.get? s.volume book)
    (hw : (match s.get? id with
      | some earlier => (v.abort earlier).2
      | none => v) = w)
    (hagrees : s.volume.tree.Agrees v.tree)
    (hget : ∀ x l, s.get? id = some x → s.volume.tree.pendingPlace x = .ok l →
      v.tree.get? l = s.volume.tree.get? l) :
    w.serial = v.serial ∧ v.tree.Agrees w.tree ∧
      ∀ l, w.tree.get? l ≠ none → w.tree.get? l = v.tree.get? l ∧
        ∀ x, s.get? id = some x → s.volume.tree.pendingPlace x ≠ .ok l := by
  cases ho : s.get? id with
  | none =>
    rw [ho] at hw
    subst hw
    exact ⟨rfl, .refl v.tree, fun l _ => ⟨rfl, fun x hx => by cases hx⟩⟩
  | some o =>
    obtain ⟨-, serial, -, -, -, hmade, -⟩ := h.told id o ho
    rw [ho] at hw
    cases hc : o.closed with
    | true =>
      have hv : v = w := by simpa [Volume.abort, hc] using hw
      subst hv
      refine ⟨rfl, .refl v.tree, fun l hpresent => ⟨rfl, fun x hx hplace => ?_⟩⟩
      cases hx
      rw [hget o l ho hplace] at hpresent
      exact h.pendingPlace_ne ho hc hpresent hplace
    | false =>
      have hv : { v with tree := v.tree.discard o } = w := by simpa [Volume.abort, hc] using hw
      subst hv
      refine ⟨rfl, Tree.agrees_discard hmade v.tree, fun l hpresent => ?_⟩
      obtain ⟨hne, hstays⟩ := Tree.stays_of_discard hmade hpresent
      rw [← hagrees.pendingPlace_eq] at hne
      refine ⟨hstays.get?_eq, fun x hx => ?_⟩
      cases hx
      exact hne

/-- Creating an output adds its pending file, and takes away that of the output which has had its
number. -/
theorem exists_place_of_create (h : Kept s.get? s.volume book) {path : Bytes} {digits : Nat}
    {v w : Volume} (hcreate : s.volume.create path digits = .ok (o, v))
    (hw : (match s.get? id with
      | some earlier => (v.abort earlier).2
      | none => v) = w) :
    w.serial = s.volume.serial + 1 ∧ s.volume.tree.Agrees w.tree ∧
      ∃ place, s.volume.tree.pendingPlace o = .ok place ∧
        ∀ l, w.tree.get? l ≠ none →
          (w.tree.get? l = if l = place then some (.file [] (s.volume.modeFor path))
            else s.volume.tree.get? l) ∧
          ∀ x, s.get? id = some x → s.volume.tree.pendingPlace x ≠ .ok l := by
  obtain ⟨-, -, hmade⟩ := Volume.isMade_of_create hcreate
  obtain ⟨-, -, place, hplace, hv⟩ := Volume.create_eq_ok_iff.1 hcreate
  have hne := Tree.ne_nil_of_pendingPlace hplace
  have hagrees : s.volume.tree.Agrees v.tree := by
    rw [hv]
    exact Tree.agrees_put hne (Tree.not_isPlain_of_pendingPlace hplace hmade.serial_eq) _
  have hget : ∀ l, v.tree.get? l =
      if l = place then some (.file [] (s.volume.modeFor path)) else s.volume.tree.get? l := by
    intro l
    rw [hv]
    exact Tree.get?_put s.volume.tree place l _ hne
  obtain ⟨hserial, hagrees', hpending⟩ := abort_earlier h hw hagrees fun x l hx hl => by
    rw [hget, if_neg]
    rintro rfl
    have hlast := Tree.getLast?_of_pendingPlace hl
    rw [Tree.getLast?_of_pendingPlace hplace] at hlast
    exact h.name_ne_of_create hcreate id x hx (Option.some.inj hlast).symm
  refine ⟨by rw [hserial, hv], hagrees.trans hagrees', place, hplace, fun l hl => ?_⟩
  obtain ⟨heq, hnot⟩ := hpending l hl
  exact ⟨heq.trans (hget l), hnot⟩

theorem kept_create (h : Kept s.get? s.volume book) (id : Int) (path : Bytes) (digits : Nat) :
    Kept (s.step (.create id path digits)).1.get? (s.step (.create id path digits)).1.volume
      (book.enter s.volume (.create id path digits) (s.step (.create id path digits)).2) := by
  rcases s.step_create_cases id path digits with ⟨e, hstep⟩ | ⟨o, v, hcreate, hstep⟩
  · rw [hstep]
    exact h
  · rw [hstep]
    generalize hw : (match s.get? id with
      | some earlier => (v.abort earlier).2
      | none => v) = w
    obtain ⟨hpath, hopen, hmade⟩ := Volume.isMade_of_create hcreate
    obtain ⟨hserial, hagrees, place, hplace, hpending⟩ := exists_place_of_create h hcreate hw
    show Kept (s.set id o w).get? w (book.set id (some ⟨path, s.volume.modeFor path, [], true⟩))
    refine h.set (s.get?_set_self ..) (fun i hi => s.get?_set_of_ne hi ..) hpath hopen
      hmade (by omega) (by omega) (fun i x _ hx => h.name_ne_of_create hcreate i x hx) ?_
    intro l entry hl hentry
    obtain ⟨hleft, hnot⟩ := hpending l (by rw [hentry]; simp)
    by_cases hlplace : l = place
    · left
      rw [if_pos hlplace, hentry] at hleft
      rw [← hagrees.pendingPlace_eq, hlplace]
      exact ⟨rfl, hplace, Option.some.inj hleft⟩
    · right
      rw [if_neg hlplace] at hleft
      exact ⟨hnot, .of_agrees hagrees hleft⟩

theorem kept_step (h : Kept s.get? s.volume book) (action : Action) :
    Kept (s.step action).1.get? (s.step action).1.volume
      (book.enter s.volume action (s.step action).2) := by
  cases action with
  | create id path digits => exact kept_create h id path digits
  | write id data =>
    cases ho : s.get? id with
    | none =>
      rw [step_write_unknown ho]
      exact h
    | some o => exact kept_write h ho data
  | commit id =>
    cases ho : s.get? id with
    | none =>
      rw [step_commit_unknown ho]
      show Kept _ _ (book.set id ((book id).map _))
      rw [h.untold id ho, Option.map_none, Book.set_none (h.untold id ho)]
      exact h
    | some o => exact kept_commit h ho
  | abort id =>
    cases ho : s.get? id with
    | none =>
      rw [step_abort_unknown ho]
      show Kept _ _ (book.set id ((book id).map _))
      rw [h.untold id ho, Option.map_none, Book.set_none (h.untold id ho)]
      exact h
    | some o => exact kept_abort h ho
  | path id =>
    rw [step_path]
    exact h
  | list =>
    rw [step_list]
    exact h
  | remove path => exact h.of_stays fun l _ hl => Tree.stays_of_remove hl
  | makeDirectory path =>
    cases hmake : s.volume.tree.makeDirectory path with
    | error e =>
      have hstep : s.step (.makeDirectory path) = (s, .broken e) := by simp [step, hmake]
      rw [hstep]
      exact h
    | ok t =>
      have hstep : s.step (.makeDirectory path) =
          ({ s with volume := { s.volume with tree := t } }, .done) := by simp [step, hmake]
      rw [hstep]
      exact h.of_stays fun l hl _ => Tree.stays_of_makeDirectory hmake hl

/-! ## Runs -/

/-- A session without outputs on a tree without pending files. -/
theorem kept_start {v : Volume} (hv : ∀ l, v.tree.get? l ≠ none → Location.IsPlain l) :
    Kept (get? ⟨v, []⟩) v Book.empty where
  untold _ _ := rfl
  told id o ho := by cases ho
  distinct id id' o o' ho := by cases ho
  owned l entry hl hentry := by
    refine absurd (hv l ?_) hl
    rw [hentry]
    simp

theorem kept_run (h : Kept s.get? s.volume book) (actions : List Action) :
    Kept (s.run actions).1.get? (s.run actions).1.volume (book.along s actions) := by
  induction actions generalizing s book with
  | nil => exact h
  | cons action actions ih => exact ih (kept_step h action)

end Session

end Teeny
