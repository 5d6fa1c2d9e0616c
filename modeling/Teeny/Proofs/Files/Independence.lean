import Teeny.Proofs.Files.Destinations
import Teeny.Proofs.Files.Sessions

/-!
# What an operation on an output touches

Outputs whose paths are made of names. An operation on one of them changes its destination and its
pending file and nothing else (`confined_step`). What it answers depends on what stands along its
path and on its pending file, and on nothing else, least of all on numbers (`alike_step`).
-/

namespace Teeny

/-- The operations on one output for a path. -/
inductive Action.IsOn (id : Int) (p : Bytes) : Action → Prop
  | create (digits : Nat) : IsOn id p (.create id p digits)
  | write (data : Bytes) : IsOn id p (.write id data)
  | commit : IsOn id p (.commit id)
  | abort : IsOn id p (.abort id)

namespace Session

variable {s s' s₁ : Session} {id other : Int} {p q : Bytes} {a : Action} {v : Volume}
  {l : Location}

/-- Whether the output with a number, if there is one, was created for a path. -/
def InLane (s : Session) (id : Int) (p : Bytes) : Prop :=
  ∀ o, s.get? id = some o → o.path = p ∧ ∃ n, n < s.volume.serial ∧ o.IsMade n

theorem ne_pendingPlace {t : Tree} {o : Output} {n : Nat} (hp : Path.IsOrdinary p)
    (hpath : o.path = p) (hmade : o.IsMade n) (hl : l ≠ Path.beside p o.name) :
    t.pendingPlace o ≠ .ok l := by
  rw [Output.eq_numbered hpath hmade] at hl ⊢
  exact fun hplace => hl (Tree.eq_pendingAt (n := n) hp hplace)

/-- No output has the number of the next pending file. -/
theorem InLane.pendingAt_ne (h : s.InLane id p) :
    ∀ o, s.get? id = some o → Tree.pendingAt q s.volume.serial ≠ Path.beside p o.name := by
  intro o ho heq
  obtain ⟨-, n, hn, hmade⟩ := h o ho
  have hserial := hmade.serial_eq
  rw [← Path.name_eq_of_beside_eq heq] at hserial
  exact absurd (Option.some.inj hserial) (Nat.ne_of_gt hn)

/-! ## What an operation changes -/

/-- Whether a change of a session is confined to one output for a path: to its destination, its
pending file and the one that is made. -/
structure Confined (id : Int) (p : Bytes) (s s₁ : Session) : Prop where
  umask_eq : s₁.volume.umask = s.volume.umask
  tag_eq : s₁.volume.tag = s.volume.tag
  serial_le : s.volume.serial ≤ s₁.volume.serial
  get?_eq : ∀ other, other ≠ id → s₁.get? other = s.get? other
  inLane : s₁.InLane id p
  /-- The number of the output is kept or new. -/
  name_eq : ∀ o, s₁.get? id = some o → o.name.serial = some s.volume.serial ∨
    ∃ earlier, s.get? id = some earlier ∧ o.name = earlier.name
  entry_eq : ∀ l, l ≠ Path.location p → l ≠ Tree.pendingAt p s.volume.serial →
    (∀ o, s.get? id = some o → l ≠ Path.beside p o.name) →
    s₁.volume.tree.get? l = s.volume.tree.get? l

theorem Confined.refl (h : s.InLane id p) : Confined id p s s where
  umask_eq := rfl
  tag_eq := rfl
  serial_le := Nat.le_refl _
  get?_eq _ _ := rfl
  inLane := h
  name_eq o ho := Or.inr ⟨o, ho, rfl⟩
  entry_eq _ _ _ _ := rfl

/-- The output stays or is closed, with a change of the tree. -/
theorem Confined.of_tree {o : Output} {closed : Bool} {t : Tree} (h : s.InLane id p)
    (ho : s.get? id = some o) (hid : s₁.get? id = some { o with closed })
    (hothers : ∀ other, other ≠ id → s₁.get? other = s.get? other)
    (hvolume : s₁.volume = { s.volume with tree := t })
    (hentry : ∀ l, l ≠ Path.location p → l ≠ Path.beside p o.name →
      t.get? l = s.volume.tree.get? l) :
    Confined id p s s₁ where
  umask_eq := by rw [hvolume]
  tag_eq := by rw [hvolume]
  serial_le := Nat.le_of_eq (by rw [hvolume])
  get?_eq := hothers
  inLane x hx := by
    rw [hid] at hx
    cases hx
    obtain ⟨hpath, n, hn, hmade⟩ := h o ho
    rw [hvolume]
    exact ⟨hpath, n, hn, hmade.home_eq, hmade.name_eq, hmade.locatable⟩
  name_eq x hx := by
    rw [hid] at hx
    cases hx
    exact Or.inr ⟨o, ho, rfl⟩
  entry_eq l hl _ hown := by
    rw [hvolume]
    exact hentry l hl (hown o ho)

theorem Confined.set {o : Output} (closed : Bool) {t : Tree} (h : s.InLane id p)
    (ho : s.get? id = some o)
    (hentry : ∀ l, l ≠ Path.location p → l ≠ Path.beside p o.name →
      t.get? l = s.volume.tree.get? l) :
    Confined id p s (s.set id { o with closed } { s.volume with tree := t }) :=
  .of_tree h ho (s.get?_set_self ..) (fun _ hother => s.get?_set_of_ne hother ..) rfl hentry

/-- What paths lead to is changed at the destination only. -/
theorem Confined.get?_of_isPlain (hc : Confined id p s s₁) (h : s.InLane id p)
    (hplain : Location.IsPlain l) (hl : l ≠ Path.location p) :
    s₁.volume.tree.get? l = s.volume.tree.get? l := by
  refine hc.entry_eq l hl ?_ fun o ho => ?_
  · rintro rfl
    exact Path.not_isPlain_beside p rfl hplain
  · rintro rfl
    obtain ⟨-, n, -, hmade⟩ := h o ho
    exact Path.not_isPlain_beside p hmade.serial_eq hplain

/-- Creating an output also gives up the one that has had its number, which takes the pending file
of that one away. -/
theorem exists_step_create {o : Output} {digits : Nat} (hp : Path.IsOrdinary p)
    (h : s.InLane id p) (hcreate : s.volume.create p digits = .ok (o, v)) :
    ∃ w, s.step (.create id p digits) = (s.set id o w, .path p) ∧ w.umask = v.umask ∧
      w.tag = v.tag ∧ w.serial = v.serial ∧ v.tree.Agrees w.tree ∧
      ∀ l, (∀ earlier, s.get? id = some earlier → l ≠ Path.beside p earlier.name) →
        w.tree.get? l = v.tree.get? l := by
  unfold step
  dsimp only
  rw [hcreate]
  cases ho : s.get? id with
  | none => exact ⟨v, rfl, rfl, rfl, rfl, .refl _, fun _ _ => rfl⟩
  | some earlier =>
    obtain ⟨hpath, n, -, hmade⟩ := h earlier ho
    refine ⟨(v.abort earlier).2, rfl, ?_⟩
    unfold Volume.abort
    cases earlier.closed with
    | true => exact ⟨rfl, rfl, rfl, .refl _, fun _ _ => rfl⟩
    | false =>
      refine ⟨rfl, rfl, rfl, Tree.agrees_discard hmade v.tree, fun l hl => ?_⟩
      exact Tree.get?_discard_of_ne (ne_pendingPlace hp hpath hmade (hl earlier rfl))

theorem confined_create (hp : Path.IsOrdinary p) (h : s.InLane id p) (digits : Nat) :
    Confined id p s (s.step (.create id p digits)).1 := by
  rcases s.step_create_cases id p digits with ⟨e, hstep⟩ | ⟨o, v, hcreate, -⟩
  · rw [hstep]
    exact .refl h
  · obtain ⟨w, hstep, humask, htag, hserial, -, hget⟩ := exists_step_create hp h hcreate
    obtain ⟨hpath, -, hmade⟩ := Volume.isMade_of_create hcreate
    obtain ⟨-, -, place, hplace, rfl⟩ := Volume.create_eq_ok_iff.1 hcreate
    rw [hstep]
    refine ⟨humask, htag, ?_, fun other hother => s.get?_set_of_ne hother .., fun x hx => ?_,
      fun x hx => ?_, fun l hl hnew hown => ?_⟩
    · exact Nat.le_trans (Nat.le_succ _) (Nat.le_of_eq hserial.symm)
    · rw [get?_set_self] at hx
      cases hx
      exact ⟨hpath, _, Nat.lt_of_lt_of_eq (Nat.lt_succ_self _) hserial.symm, hmade⟩
    · rw [get?_set_self] at hx
      cases hx
      exact Or.inl hmade.serial_eq
    · have hne : l ≠ place := by
        rintro rfl
        refine ne_pendingPlace hp hpath hmade ?_ hplace
        rwa [Output.eq_numbered hpath hmade]
      refine (hget l hown).trans ?_
      rw [Tree.get?_put _ _ _ _ (Tree.ne_nil_of_pendingPlace hplace), if_neg hne]

/-- An operation on an output changes nothing but that output, its destination and its pending
file. -/
theorem confined_step (hp : Path.IsOrdinary p) (h : s.InLane id p) (ha : a.IsOn id p) :
    Confined id p s (s.step a).1 := by
  cases ha with
  | create digits => exact confined_create hp h digits
  | write data =>
    cases ho : s.get? id with
    | none =>
      rw [step_write_unknown ho]
      exact .refl h
    | some o =>
      obtain ⟨hpath, n, -, hmade⟩ := h o ho
      rw [step_write ho]
      split
      next => exact .refl h
      next =>
        refine .of_tree h ho ho (fun _ _ => rfl) rfl fun l _ hown => ?_
        exact Tree.get?_append_of_ne (ne_pendingPlace hp hpath hmade hown)
  | commit =>
    cases ho : s.get? id with
    | none =>
      rw [step_commit_unknown ho]
      exact .refl h
    | some o =>
      obtain ⟨hpath, n, -, hmade⟩ := h o ho
      rcases step_commit_cases ho with ⟨-, hstep⟩ | ⟨-, t, ht, hstep⟩ | ⟨-, fault, -, hstep⟩
      · rw [hstep]
        exact .set o.closed h ho fun _ _ _ => rfl
      · rw [hstep]
        refine .set true h ho fun l hl hown => ?_
        rw [Output.eq_numbered hpath hmade] at ht hown
        exact Tree.get?_of_replace hp ht hl hown
      · rw [hstep]
        refine .set true h ho fun l _ hown => ?_
        exact Tree.get?_discard_of_ne (ne_pendingPlace hp hpath hmade hown)
  | abort =>
    cases ho : s.get? id with
    | none =>
      rw [step_abort_unknown ho]
      exact .refl h
    | some o =>
      obtain ⟨hpath, n, -, hmade⟩ := h o ho
      rw [step_abort ho]
      cases hc : o.closed with
      | true => exact .set true h ho fun _ _ _ => rfl
      | false =>
        refine .set true h ho fun l _ hown => ?_
        exact Tree.get?_discard_of_ne (ne_pendingPlace hp hpath hmade hown)

/-! ## What an operation depends on -/

/-- How many digits the number of an output has, whether it is closed, and what its pending file
holds. -/
def status (s : Session) (id : Int) (p : Bytes) : Option (Nat × Bool × Option Entry) :=
  (s.get? id).map fun o => (o.digits, o.closed, s.volume.tree.get? (Path.beside p o.name))

/-- Whether two sessions are alike for an output: in what stands along its path, and in the output
itself but for its number. -/
structure Alike (id : Int) (p : Bytes) (s s' : Session) : Prop where
  along : s.volume.tree.AgreesAlong s'.volume.tree (Path.location p)
  umask_eq : s.volume.umask = s'.volume.umask
  tag_eq : s.volume.tag = s'.volume.tag
  status_eq : s.status id p = s'.status id p

namespace Alike

theorem refl (id : Int) (p : Bytes) (s : Session) : Alike id p s s :=
  ⟨fun _ _ => rfl, rfl, rfl, rfl⟩

theorem symm (h : Alike id p s s') : Alike id p s' s :=
  ⟨fun k hk => (h.along k hk).symm, h.umask_eq.symm, h.tag_eq.symm, h.status_eq.symm⟩

theorem trans {s'' : Session} (h : Alike id p s s') (h' : Alike id p s' s'') :
    Alike id p s s'' :=
  ⟨fun k hk => (h.along k hk).trans (h'.along k hk), h.umask_eq.trans h'.umask_eq,
    h.tag_eq.trans h'.tag_eq, h.status_eq.trans h'.status_eq⟩

/-- There is no output in either session, or there are two that differ in their numbers. -/
theorem outputs_cases (h : Alike id p s s') (hs : s.InLane id p) (hs' : s'.InLane id p) :
    s.get? id = none ∧ s'.get? id = none ∨
      ∃ n n' digits closed, s.get? id = some (.numbered p n digits closed) ∧
        s'.get? id = some (.numbered p n' digits closed) ∧
        s.volume.tree.get? (Tree.pendingAt p n) = s'.volume.tree.get? (Tree.pendingAt p n') := by
  have hstatus := h.status_eq
  unfold status at hstatus
  cases ho : s.get? id with
  | none =>
    rw [ho] at hstatus
    exact Or.inl ⟨rfl, Option.map_eq_none_iff.1 hstatus.symm⟩
  | some o =>
    rw [ho] at hstatus
    obtain ⟨o', ho', heq⟩ := Option.map_eq_some_iff.1 hstatus.symm
    obtain ⟨hdigits, heq⟩ := Prod.mk.inj heq
    obtain ⟨hclosed, hentry⟩ := Prod.mk.inj heq
    obtain ⟨hpath, n, -, hmade⟩ := hs o ho
    obtain ⟨hpath', n', -, hmade'⟩ := hs' o' ho'
    have hform := Output.eq_numbered hpath hmade
    have hform' := Output.eq_numbered hpath' hmade'
    refine Or.inr ⟨n, n', o.digits, o.closed, congrArg some hform, ?_, ?_⟩
    · rw [ho', hform', hdigits, hclosed]
    · rw [hform, hform'] at hentry
      exact hentry.symm

theorem of_get? {n n' digits : Nat} {closed : Bool}
    (ho : s.get? id = some (.numbered p n digits closed))
    (ho' : s'.get? id = some (.numbered p n' digits closed))
    (halong : s.volume.tree.AgreesAlong s'.volume.tree (Path.location p))
    (humask : s.volume.umask = s'.volume.umask) (htag : s.volume.tag = s'.volume.tag)
    (hentry : s.volume.tree.get? (Tree.pendingAt p n) =
      s'.volume.tree.get? (Tree.pendingAt p n')) : Alike id p s s' := by
  refine ⟨halong, humask, htag, ?_⟩
  rw [status, status, ho, ho']
  exact congrArg (fun entry => some (digits, closed, entry)) hentry

section
variable (h : Alike id p s s') {n n' digits : Nat} {t t' : Tree}
  (halong : t.AgreesAlong t' (Path.location p))
  (hentry : t.get? (Tree.pendingAt p n) = t'.get? (Tree.pendingAt p n'))
include h halong hentry

/-- The tree changes and the outputs stay. -/
theorem setTree {closed : Bool} (ho : s.get? id = some (.numbered p n digits closed))
    (ho' : s'.get? id = some (.numbered p n' digits closed)) :
    Alike id p { s with volume := { s.volume with tree := t } }
      { s' with volume := { s'.volume with tree := t' } } :=
  .of_get? ho ho' halong h.umask_eq h.tag_eq hentry

/-- The tree changes and the outputs are closed, or are so already. -/
theorem close :
    Alike id p (s.set id (.numbered p n digits true) { s.volume with tree := t })
      (s'.set id (.numbered p n' digits true) { s'.volume with tree := t' }) :=
  .of_get? (s.get?_set_self ..) (s'.get?_set_self ..) halong h.umask_eq h.tag_eq hentry

end

end Alike

theorem step_create_of_error {error : OutputError} {digits : Nat}
    (h : s.volume.create p digits = .error error) (id : Int) :
    s.step (.create id p digits) = (s, .failed error) := by
  simp [step, h]

theorem step_commit_of_closed {n digits : Nat} (ho : s.get? id = some (.numbered p n digits true)) :
    s.step (.commit id) = (s.set id (.numbered p n digits true) s.volume, .failed .closed) := by
  simp [step, withOutput, ho, Volume.commit, Output.numbered]

section
variable {n digits : Nat} (ho : s.get? id = some (.numbered p n digits false))
include ho

theorem step_write_of_open (data : Bytes) :
    s.step (.write id data) =
      ({ s with volume :=
        { s.volume with tree := s.volume.tree.append (.numbered p n digits false) data } },
        .written data.length) :=
  step_write ho data

theorem step_abort_of_open :
    s.step (.abort id) =
      (s.set id (.numbered p n digits true)
        { s.volume with tree := s.volume.tree.discard (.numbered p n digits false) }, .done) :=
  step_abort ho

theorem step_commit_of_ok {t : Tree}
    (h : s.volume.tree.replace (.numbered p n digits false) = .ok t) :
    s.step (.commit id) =
      (s.set id (.numbered p n digits true) { s.volume with tree := t }, .done) := by
  have hopen : (Output.numbered p n digits false).closed = false := rfl
  simp only [step, withOutput, ho, Volume.commit, hopen, h]
  rfl

theorem step_commit_of_error {fault : FileFault}
    (h : s.volume.tree.replace (.numbered p n digits false) = .error fault) :
    s.step (.commit id) =
      (s.set id (.numbered p n digits true)
          { s.volume with tree := s.volume.tree.discard (.numbered p n digits false) },
        .failed (.unreplaced
          (.rename ((Output.forPath p 0 0).pendingPath s.volume.tag) p fault))) := by
  have hopen : (Output.numbered p n digits false).closed = false := rfl
  simp only [step, withOutput, ho, Volume.commit, hopen, h]
  rfl

end

section
variable (hp : Path.IsOrdinary p) (h : Alike id p s s') (hs : s.InLane id p)
  (hs' : s'.InLane id p)
include hp h hs hs'

theorem alike_create (digits : Nat) :
    (s.step (.create id p digits)).2 = (s'.step (.create id p digits)).2 ∧
      Alike id p (s.step (.create id p digits)).1 (s'.step (.create id p digits)).1 := by
  rcases Volume.create_cases hp h.along h.umask_eq h.tag_eq digits with
    ⟨error, hcreate, hcreate'⟩ | ⟨mode, hcreate, hcreate'⟩
  · rw [step_create_of_error hcreate, step_create_of_error hcreate']
    exact ⟨rfl, h⟩
  · obtain ⟨w, hstep, humask, htag, -, hagrees, hget⟩ := exists_step_create hp hs hcreate
    obtain ⟨w', hstep', humask', htag', -, hagrees', hget'⟩ := exists_step_create hp hs' hcreate'
    have hbegun : ∀ v : Volume, v.tree.Agrees (v.begun p mode).tree := fun v =>
      Tree.agrees_put (Path.beside_ne_nil _ _) (Path.not_isPlain_beside p rfl) _
    have hnew : ∀ v : Volume, (v.begun p mode).tree.get? (Tree.pendingAt p v.serial) =
        some (.file [] mode) := fun v => by
      rw [Volume.begun, Tree.get?_put _ _ _ _ (Path.beside_ne_nil _ _), if_pos rfl]
    rw [hstep, hstep']
    refine ⟨rfl, .of_get? (s.get?_set_self ..) (s'.get?_set_self ..) ?_ ?_ ?_ ?_⟩
    · exact h.along.of_agrees (Path.isPlain_location p) ((hbegun _).trans hagrees)
        ((hbegun _).trans hagrees')
    · exact humask.trans (h.umask_eq.trans humask'.symm)
    · exact htag.trans (h.tag_eq.trans htag'.symm)
    · exact ((hget _ hs.pendingAt_ne).trans (hnew _)).trans
        ((hget' _ hs'.pendingAt_ne).trans (hnew _)).symm

/-- Giving up leaves nothing that could differ. -/
theorem Alike.discard {n n' digits : Nat} (ho : s.get? id = some (.numbered p n digits false))
    (ho' : s'.get? id = some (.numbered p n' digits false))
    (hentry : s.volume.tree.get? (Tree.pendingAt p n) =
      s'.volume.tree.get? (Tree.pendingAt p n')) :
    Alike id p
      (s.set id (.numbered p n digits true)
        { s.volume with tree := s.volume.tree.discard (.numbered p n digits false) })
      (s'.set id (.numbered p n' digits true)
        { s'.volume with tree := s'.volume.tree.discard (.numbered p n' digits false) }) := by
  obtain ⟨-, _, -, hmade⟩ := hs _ ho
  obtain ⟨-, _, -, hmade'⟩ := hs' _ ho'
  refine h.close (h.along.of_agrees (Path.isPlain_location p) ?_ ?_)
    (Tree.get?_discard_eq hp h.along hentry)
  · exact Tree.agrees_discard hmade _
  · exact Tree.agrees_discard hmade' _

theorem alike_write (data : Bytes) :
    (s.step (.write id data)).2 = (s'.step (.write id data)).2 ∧
      Alike id p (s.step (.write id data)).1 (s'.step (.write id data)).1 := by
  rcases h.outputs_cases hs hs' with ⟨ho, ho'⟩ | ⟨n, n', digits, closed, ho, ho', hentry⟩
  · rw [step_write_unknown ho, step_write_unknown ho']
    exact ⟨rfl, h⟩
  · obtain ⟨-, _, -, hmade⟩ := hs _ ho
    obtain ⟨-, _, -, hmade'⟩ := hs' _ ho'
    cases closed with
    | true =>
      rw [step_write ho, step_write ho']
      exact ⟨rfl, h⟩
    | false =>
      have halong := h.along.of_agrees (Path.isPlain_location p)
        (Tree.agrees_append hmade _ data) (Tree.agrees_append hmade' _ data)
      rw [step_write_of_open ho, step_write_of_open ho']
      exact ⟨rfl, h.setTree halong (Tree.get?_append_eq hp h.along hentry data) ho ho'⟩

theorem alike_abort :
    (s.step (.abort id)).2 = (s'.step (.abort id)).2 ∧
      Alike id p (s.step (.abort id)).1 (s'.step (.abort id)).1 := by
  rcases h.outputs_cases hs hs' with ⟨ho, ho'⟩ | ⟨n, n', digits, closed, ho, ho', hentry⟩
  · rw [step_abort_unknown ho, step_abort_unknown ho']
    exact ⟨rfl, h⟩
  · cases closed with
    | true =>
      rw [step_abort ho, step_abort ho']
      exact ⟨rfl, h.close h.along hentry⟩
    | false =>
      rw [step_abort_of_open ho, step_abort_of_open ho']
      exact ⟨rfl, h.discard hp hs hs' ho ho' hentry⟩

theorem alike_commit :
    (s.step (.commit id)).2 = (s'.step (.commit id)).2 ∧
      Alike id p (s.step (.commit id)).1 (s'.step (.commit id)).1 := by
  rcases h.outputs_cases hs hs' with ⟨ho, ho'⟩ | ⟨n, n', digits, closed, ho, ho', hentry⟩
  · rw [step_commit_unknown ho, step_commit_unknown ho']
    exact ⟨rfl, h⟩
  · cases closed with
    | true =>
      rw [step_commit_of_closed ho, step_commit_of_closed ho']
      exact ⟨rfl, h.close h.along hentry⟩
    | false =>
      rcases Tree.replace_cases hp h.along hentry with ⟨fault, ht, ht'⟩ | ⟨entry, ht, ht'⟩
      · rw [step_commit_of_error ho ht, step_commit_of_error ho' ht', h.tag_eq]
        exact ⟨rfl, h.discard hp hs hs' ho ho' hentry⟩
      · rw [step_commit_of_ok ho ht, step_commit_of_ok ho' ht']
        exact ⟨rfl, h.close (h.along.replaced entry)
          ((Tree.get?_replaced ..).trans (Tree.get?_replaced ..).symm)⟩

/-- What an operation on an output answers depends on no more than two sessions have in common that
are alike for it, and they stay alike. -/
theorem alike_step (ha : a.IsOn id p) :
    (s.step a).2 = (s'.step a).2 ∧ Alike id p (s.step a).1 (s'.step a).1 := by
  cases ha with
  | create digits => exact alike_create hp h hs hs' digits
  | write data => exact alike_write hp h hs hs' data
  | commit => exact alike_commit hp h hs hs'
  | abort => exact alike_abort hp h hs hs'

end

end Session

end Teeny
