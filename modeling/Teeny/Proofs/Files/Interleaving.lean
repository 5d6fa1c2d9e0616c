import Mathlib.Logic.Equiv.Basic
import Teeny.Proofs.Files.Independence

/-!
# Outputs that do not interfere

Two outputs are written side by side, and neither of their paths is the other or lies inside it.
What an operation on one of them touches is nothing that the other depends on (`Shared.alike`). So
however two scripts of operations are interleaved, each operation is answered as if its script had
run alone, and the tree in the end is the same but for the numbers of pending files
(`run_interleaved`).
-/

namespace Teeny

/-- Whether neither of two paths is the other or lies inside it. -/
def Path.Unrelated (p q : Bytes) : Prop := ¬ split p <+: split q ∧ ¬ split q <+: split p

instance (p q : Bytes) : Decidable (Path.Unrelated p q) :=
  inferInstanceAs (Decidable (¬ Path.split p <+: Path.split q ∧ ¬ Path.split q <+: Path.split p))

/-- Whether a list has the elements of two others, each in its own order. -/
inductive Interleaves {α : Type} : List α → List α → List α → Prop
  | nil : Interleaves [] [] []
  | left {x : α} {xs ys zs : List α} (h : Interleaves xs ys zs) :
      Interleaves (x :: xs) ys (x :: zs)
  | right {y : α} {xs ys zs : List α} (h : Interleaves xs ys zs) :
      Interleaves xs (y :: ys) (y :: zs)

theorem Interleaves.mem {α : Type} {x : α} {xs ys zs : List α} (h : Interleaves xs ys zs)
    (hx : x ∈ zs) : x ∈ xs ∨ x ∈ ys := by
  induction h with
  | nil => exact Or.inl hx
  | left h ih =>
    rcases List.mem_cons.1 hx with rfl | hx
    · exact Or.inl (List.mem_cons_self ..)
    · exact (ih hx).imp_left (List.mem_cons_of_mem _)
  | right h ih =>
    rcases List.mem_cons.1 hx with rfl | hx
    · exact Or.inr (List.mem_cons_self ..)
    · exact (ih hx).imp_right (List.mem_cons_of_mem _)

theorem Tree.isPlain_of_entries {t : Tree} (h : ∀ e ∈ t.entries, Location.IsPlain e.1) :
    ∀ l, t.get? l ≠ none → Location.IsPlain l := by
  have hentries : ∀ (es : List (Location × Entry)) (l : Location),
      (∀ e ∈ es, Location.IsPlain e.1) → findEntry l es ≠ none → Location.IsPlain l := by
    intro es l hes hl
    induction es with
    | nil => exact absurd rfl hl
    | cons e es ih =>
      obtain ⟨he, hes⟩ := List.forall_mem_cons.1 hes
      by_cases heq : e.1 = l
      · exact heq ▸ he
      · rw [findEntry, if_neg heq] at hl
        exact ih hes hl
  intro l hl
  by_cases hroot : l = []
  · rw [hroot]
    exact List.forall_mem_nil _
  · rw [get?, if_neg hroot] at hl
    exact hentries t.entries l h hl

theorem Path.ne_location {p q : Bytes} {k : Location} (h : ¬ split p <+: split q)
    (hk : k <+: location q) : k ≠ location p := by
  rintro rfl
  have htexts : ∀ p, (location p).map Name.text = split p := fun p => by
    rw [location, Location.ofNames, List.map_map]
    exact List.map_id _
  have hmap := hk.map Name.text
  rw [htexts, htexts] at hmap
  exact h hmap

namespace Session

variable {s s' s₁ : Session} {i j : Int} {p q : Bytes} {a : Action} {l : Location}

/-! ## Two outputs -/

/-- Whether there are no outputs but two for their paths, with different numbers. -/
structure Shared (i j : Int) (p q : Bytes) (s : Session) : Prop where
  left : s.InLane i p
  right : s.InLane j q
  get?_eq_none : ∀ id, id ≠ i → id ≠ j → s.get? id = none
  apart : ∀ o o', s.get? i = some o → s.get? j = some o' → o.name.serial ≠ o'.name.serial

namespace Shared

theorem symm (h : Shared i j p q s) : Shared j i q p s where
  left := h.right
  right := h.left
  get?_eq_none id hj hi := h.get?_eq_none id hi hj
  apart o o' ho ho' heq := h.apart o' o ho' ho heq.symm

/-- A change that is confined to one output leaves two. -/
theorem confined (h : Shared i j p q s) (hij : i ≠ j) (hc : Confined i p s s₁) :
    Shared i j p q s₁ where
  left := hc.inLane
  right o ho := by
    rw [hc.get?_eq j hij.symm] at ho
    obtain ⟨hpath, n, hn, hmade⟩ := h.right o ho
    exact ⟨hpath, n, Nat.lt_of_lt_of_le hn hc.serial_le, hmade⟩
  get?_eq_none id hi hj := by rw [hc.get?_eq id hi, h.get?_eq_none id hi hj]
  apart o o' ho ho' heq := by
    rw [hc.get?_eq j hij.symm] at ho'
    rcases hc.name_eq o ho with hnew | ⟨earlier, hearlier, hname⟩
    · obtain ⟨-, n, hn, hmade⟩ := h.right o' ho'
      rw [hnew, hmade.serial_eq] at heq
      exact Nat.ne_of_gt hn (Option.some.inj heq)
    · rw [hname] at heq
      exact h.apart earlier o' hearlier ho' heq

/-- A change that is confined to one output is none for the other. -/
theorem alike (h : Shared i j p q s) (hij : i ≠ j) (hpq : ¬ Path.split p <+: Path.split q)
    (hc : Confined i p s s₁) : Alike j q s s₁ := by
  refine ⟨fun k hk => ?_, hc.umask_eq.symm, hc.tag_eq.symm, ?_⟩
  · have hplain : Location.IsPlain k := fun n hn => Path.isPlain_location q n (hk.subset hn)
    exact (hc.get?_of_isPlain h.left hplain (Path.ne_location hpq hk)).symm
  · -- the pending file of the other output has a number of its own
    unfold status
    rw [hc.get?_eq j hij.symm]
    cases ho : s.get? j with
    | none => rfl
    | some o =>
      obtain ⟨-, n, -, hmade⟩ := h.right o ho
      have hentry := hc.entry_eq (Path.beside q o.name) ?_ (h.right.pendingAt_ne o ho).symm ?_
      · rw [Option.map_some, Option.map_some, hentry]
      · intro heq
        refine Path.not_isPlain_beside q hmade.serial_eq ?_
        rw [heq]
        exact Path.isPlain_location p
      · intro o' ho' heq
        exact h.apart o' o ho' ho (congrArg Name.serial (Path.name_eq_of_beside_eq heq).symm)

end Shared

/-! ## Runs -/

/-- Operations with their answers. -/
def transcript (s : Session) (actions : List Action) : List (Action × Answer) :=
  actions.zip (s.run actions).2

theorem transcript_cons (s : Session) (a : Action) (actions : List Action) :
    s.transcript (a :: actions) = (a, (s.step a).2) :: (s.step a).1.transcript actions := rfl

section
variable (hp : Path.IsOrdinary p) (hq : Path.IsOrdinary q) (hij : i ≠ j)
  (hpq : Path.Unrelated p q) {xs ys zs : List Action}
include hp hq hij hpq

/-- Each of two scripts is answered as on its own, and each of the outputs ends as on its own. -/
theorem interleaves_transcript {sx sy : Session} (h : Interleaves xs ys zs)
    (hxs : ∀ a ∈ xs, a.IsOn i p) (hys : ∀ a ∈ ys, a.IsOn j q) (hs : Shared i j p q s)
    (hx : sx.InLane i p) (hy : sy.InLane j q) (hsx : Alike i p s sx) (hsy : Alike j q s sy) :
    Interleaves (sx.transcript xs) (sy.transcript ys) (s.transcript zs) ∧
      Alike i p (s.run zs).1 (sx.run xs).1 ∧ Alike j q (s.run zs).1 (sy.run ys).1 := by
  -- the session is alike to that of each script for the output of the script: an operation keeps
  -- the one because both sessions take it, and the other because it is confined
  induction h generalizing s sx sy with
  | nil => exact ⟨.nil, hsx, hsy⟩
  | left h ih =>
    obtain ⟨ha, hxs⟩ := List.forall_mem_cons.1 hxs
    have hc := confined_step hp hs.left ha
    obtain ⟨hanswer, halike⟩ := alike_step hp hsx hs.left hx ha
    obtain ⟨hscripts, hends⟩ := ih hxs hys (hs.confined hij hc) (confined_step hp hx ha).inLane hy
      halike ((hs.alike hij hpq.1 hc).symm.trans hsy)
    refine ⟨?_, hends⟩
    rw [transcript_cons, transcript_cons, hanswer]
    exact .left hscripts
  | right h ih =>
    obtain ⟨ha, hys⟩ := List.forall_mem_cons.1 hys
    have hc := confined_step hq hs.right ha
    obtain ⟨hanswer, halike⟩ := alike_step hq hsy hs.right hy ha
    obtain ⟨hscripts, hends⟩ := ih hxs hys (hs.symm.confined hij.symm hc).symm hx
      (confined_step hq hy ha).inLane ((hs.symm.alike hij.symm hpq.2 hc).symm.trans hsx) halike
    refine ⟨?_, hends⟩
    rw [transcript_cons, transcript_cons, hanswer]
    exact .right hscripts

omit hpq in
/-- Two outputs change nothing that a path leads to but their destinations. -/
theorem shared_run (hzs : ∀ a ∈ zs, a.IsOn i p ∨ a.IsOn j q) (hs : Shared i j p q s) :
    Shared i j p q (s.run zs).1 ∧
      ∀ l, Location.IsPlain l → l ≠ Path.location p → l ≠ Path.location q →
        (s.run zs).1.volume.tree.get? l = s.volume.tree.get? l := by
  induction zs generalizing s with
  | nil => exact ⟨hs, fun _ _ _ _ => rfl⟩
  | cons a zs ih =>
    obtain ⟨ha, hzs⟩ := List.forall_mem_cons.1 hzs
    rcases ha with ha | ha
    · have hc := confined_step hp hs.left ha
      obtain ⟨hshared, hrun⟩ := ih hzs (hs.confined hij hc)
      refine ⟨hshared, fun l hplain hl hl' => ?_⟩
      exact (hrun l hplain hl hl').trans (hc.get?_of_isPlain hs.left hplain hl)
    · have hc := confined_step hq hs.right ha
      obtain ⟨hshared, hrun⟩ := ih hzs (hs.symm.confined hij.symm hc).symm
      refine ⟨hshared, fun l hplain hl hl' => ?_⟩
      exact (hrun l hplain hl hl').trans (hc.get?_of_isPlain hs.right hplain hl')

end

end Session

/-! ## Numbers of pending files -/

/-- A name with another number, if it has one. -/
def Name.renumber (ρ : Equiv.Perm Nat) (n : Name) : Name := { n with serial := n.serial.map ρ }

namespace Location

/-- A location with other numbers in its names. -/
def renumber (ρ : Equiv.Perm Nat) (l : Location) : Location := l.map (Name.renumber ρ)

variable {ρ : Equiv.Perm Nat} {l : Location}

theorem renumber_of_isPlain (h : IsPlain l) : l.renumber ρ = l := by
  have hnames : ∀ n ∈ l, n.renumber ρ = n := by
    intro n hn
    rw [Name.renumber, h n hn, Option.map_none, ← h n hn]
  exact (List.map_congr_left hnames).trans (List.map_id' l)

theorem renumber_symm (l : Location) : (l.renumber ρ).renumber ρ.symm = l := by
  have hnames : ∀ n ∈ l, (n.renumber ρ).renumber ρ.symm = n := by
    intro n _
    obtain ⟨text, serial⟩ := n
    cases serial <;> simp [Name.renumber]
  rw [renumber, renumber, List.map_map]
  exact (List.map_congr_left hnames).trans (List.map_id' l)

theorem renumber_pendingAt (p : Bytes) (n : Nat) :
    renumber ρ (Tree.pendingAt p n) = Tree.pendingAt p (ρ n) := by
  have hplain : (Path.location p).dropLast.map (Name.renumber ρ) = (Path.location p).dropLast :=
    renumber_of_isPlain (Path.isPlain_location p).dropLast
  rw [renumber, Tree.pendingAt, Path.beside, List.map_append, hplain]
  rfl

end Location

theorem exists_perm {a b a' b' : Nat} (h : a ≠ b) (h' : a' ≠ b') :
    ∃ ρ : Equiv.Perm Nat, ρ a = a' ∧ ρ b = b' := by
  have hne : Equiv.swap a a' b ≠ a' := by
    intro heq
    exact h ((Equiv.swap a a').injective (heq.trans (Equiv.swap_apply_left a a').symm)).symm
  refine ⟨(Equiv.swap a a').trans (Equiv.swap (Equiv.swap a a' b) b'), ?_, ?_⟩
  · rw [Equiv.trans_apply, Equiv.swap_apply_left, Equiv.swap_apply_of_ne_of_ne hne.symm h']
  · rw [Equiv.trans_apply, Equiv.swap_apply_left]

namespace Session

variable {s s' : Session} {i j id : Int} {p q : Bytes} {l : Location} {ρ : Equiv.Perm Nat}

/-- Whether a change of numbers takes the output of one session to that of another. -/
def Matched (ρ : Equiv.Perm Nat) (id : Int) (s s' : Session) : Prop :=
  ∀ o o', s.get? id = some o → s'.get? id = some o' → o'.name.serial = o.name.serial.map ρ

theorem Matched.symm (h : Matched ρ id s s') : Matched ρ.symm id s' s := by
  intro o' o ho' ho
  rw [h o o' ho ho', Option.map_map]
  simp

/-- The number of an output, or another where there is none. -/
def number (s : Session) (id : Int) (other : Nat) : Nat :=
  ((s.get? id).bind fun o => o.name.serial).getD other

theorem Shared.number_ne (h : Shared i j p q s) :
    s.number i s.volume.serial ≠ s.number j (s.volume.serial + 1) := by
  unfold number
  cases ho : s.get? i with
  | none =>
    cases ho' : s.get? j with
    | none => simp
    | some o' =>
      obtain ⟨-, n', hn', hmade'⟩ := h.right o' ho'
      simpa [hmade'.serial_eq] using Nat.ne_of_gt hn'
  | some o =>
    obtain ⟨-, n, hn, hmade⟩ := h.left o ho
    cases ho' : s.get? j with
    | none => simpa [hmade.serial_eq] using Nat.ne_of_lt (Nat.lt_succ_of_lt hn)
    | some o' =>
      obtain ⟨-, n', -, hmade'⟩ := h.right o' ho'
      have hapart := h.apart o o' ho ho'
      rw [hmade.serial_eq, hmade'.serial_eq] at hapart
      simpa [hmade.serial_eq, hmade'.serial_eq] using hapart

theorem matched_of_number {other other' : Nat} (hs : s.InLane id p) (hs' : s'.InLane id p)
    (h : ρ (s.number id other) = s'.number id other') : Matched ρ id s s' := by
  intro o o' ho ho'
  obtain ⟨-, n, -, hmade⟩ := hs o ho
  obtain ⟨-, n', -, hmade'⟩ := hs' o' ho'
  simp only [number, ho, ho', Option.bind_some, hmade.serial_eq, hmade'.serial_eq,
    Option.getD_some] at h
  rw [hmade.serial_eq, hmade'.serial_eq, Option.map_some, h]

/-- The pending file of an output is found under the number that it has in an alike session. -/
theorem Alike.get?_renumber {o : Output} (h : Alike id p s s') (hp : Path.IsOrdinary p)
    (hs : s.InLane id p) (hs' : s'.InLane id p) (hρ : Matched ρ id s s')
    (ho : s.get? id = some o) (hplace : s.volume.tree.pendingPlace o = .ok l) :
    s'.volume.tree.get? (l.renumber ρ) = s.volume.tree.get? l := by
  rcases h.outputs_cases hs hs' with ⟨hnone, -⟩ | ⟨n, n', digits, closed, hn, hn', hentry⟩
  · rw [ho] at hnone
    cases hnone
  · have hnumber : some n' = some (ρ n) := hρ _ _ hn hn'
    rw [ho] at hn
    cases hn
    rw [Tree.eq_pendingAt hp hplace, hentry, Location.renumber_pendingAt,
      Option.some.inj hnumber]

/-- Sessions that are alike for both outputs, and wherever paths lead, have the same tree but for
numbers. -/
theorem get?_renumber_of_alike {book : Book} {entry : Entry} (hp : Path.IsOrdinary p)
    (hq : Path.IsOrdinary q) (hs : Shared i j p q s) (hs' : Shared i j p q s')
    (hkept : Kept s.get? s.volume book) (hagrees : s.volume.tree.Agrees s'.volume.tree)
    (hi : Alike i p s s') (hj : Alike j q s s') (hρi : Matched ρ i s s') (hρj : Matched ρ j s s')
    (hl : s.volume.tree.get? l = some entry) :
    s'.volume.tree.get? (l.renumber ρ) = some entry := by
  by_cases hplain : Location.IsPlain l
  · rw [Location.renumber_of_isPlain hplain, ← hagrees l hplain, hl]
  · obtain ⟨id, o, -, ho, -, -, hplace, -⟩ := hkept.owned l entry hplain hl
    rw [← hl]
    by_cases hidi : id = i
    · subst hidi
      exact hi.get?_renumber hp hs.left hs'.left hρi ho hplace
    · by_cases hidj : id = j
      · subst hidj
        exact hj.get?_renumber hq hs.right hs'.right hρj ho hplace
      · rw [hs.get?_eq_none id hidi hidj] at ho
        cases ho

/-- Scripts for two outputs do not interfere if neither path is the other or lies inside it. However
the scripts are interleaved, each operation is answered as if its script had run alone. And two ways
to interleave them lead to the same tree, but for the numbers of pending files. -/
theorem run_interleaved (v : Volume) (hv : ∀ l, v.tree.get? l ≠ none → Location.IsPlain l)
    {i j : Int} (hij : i ≠ j) {p q : Bytes} (hp : Path.IsOrdinary p) (hq : Path.IsOrdinary q)
    (hpq : Path.Unrelated p q) {xs ys : List Action} (hxs : ∀ a ∈ xs, a.IsOn i p)
    (hys : ∀ a ∈ ys, a.IsOn j q) {zs ws : List Action} (hzs : Interleaves xs ys zs)
    (hws : Interleaves xs ys ws) :
    let s : Session := ⟨v, []⟩
    Interleaves (s.transcript xs) (s.transcript ys) (s.transcript zs) ∧
      Interleaves (s.transcript xs) (s.transcript ys) (s.transcript ws) ∧
      ∃ ρ : Equiv.Perm Nat, ∀ l, (s.run ws).1.volume.tree.get? (l.renumber ρ) =
        (s.run zs).1.volume.tree.get? l := by
  intro s
  have hlane : ∀ id p, s.InLane id p := fun id p o ho => by cases ho
  have hs : Shared i j p q s := ⟨hlane i p, hlane j q, fun _ _ _ => rfl, fun o _ ho => by cases ho⟩
  have hrun : ∀ {zs}, Interleaves xs ys zs →
      Shared i j p q (s.run zs).1 ∧
        ∀ l, Location.IsPlain l → l ≠ Path.location p → l ≠ Path.location q →
          (s.run zs).1.volume.tree.get? l = v.tree.get? l := fun h =>
    shared_run hp hq hij (fun a ha => (h.mem ha).imp (hxs a) (hys a)) hs
  obtain ⟨hscripts, hzi, hzj⟩ := interleaves_transcript hp hq hij hpq hzs hxs hys hs (hlane i p)
    (hlane j q) (.refl i p s) (.refl j q s)
  obtain ⟨hscripts', hwi, hwj⟩ := interleaves_transcript hp hq hij hpq hws hxs hys hs (hlane i p)
    (hlane j q) (.refl i p s) (.refl j q s)
  obtain ⟨hz, hzplain⟩ := hrun hzs
  obtain ⟨hw, hwplain⟩ := hrun hws
  have hi := hzi.trans hwi.symm
  have hj := hzj.trans hwj.symm
  have hagrees : (s.run zs).1.volume.tree.Agrees (s.run ws).1.volume.tree := by
    intro l hplain
    by_cases hlp : l = Path.location p
    · rw [hlp, hi.along.get?_eq]
    · by_cases hlq : l = Path.location q
      · rw [hlq, hj.along.get?_eq]
      · rw [hzplain l hplain hlp hlq, hwplain l hplain hlp hlq]
  obtain ⟨ρ, hρi, hρj⟩ := exists_perm hz.number_ne hw.number_ne
  have hmi := matched_of_number hz.left hw.left hρi
  have hmj := matched_of_number hz.right hw.right hρj
  refine ⟨hscripts, hscripts', ρ, fun l => ?_⟩
  cases hl : (s.run zs).1.volume.tree.get? l with
  | some entry =>
    exact get?_renumber_of_alike hp hq hz hw (kept_run (kept_start hv) zs) hagrees hi hj hmi hmj hl
  | none =>
    -- an entry there would be one of the first run under its own number
    rw [Option.eq_none_iff_forall_ne_some]
    intro entry hentry
    have hback := get?_renumber_of_alike hp hq hw hz (kept_run (kept_start hv) ws)
      (fun l hplain => (hagrees l hplain).symm) hi.symm hj.symm hmi.symm hmj.symm hentry
    rw [Location.renumber_symm, hl] at hback
    cases hback

/-- An output is put in place beside one that stays open. Which of them is created first decides the
number of the pending file that is left, and nothing else. -/
theorem run_interleaved_of_one_directory :
    let v : Volume :=
      ⟨⟨[([⟨bytes "d", none⟩], .directory),
        ([⟨bytes "d", none⟩, ⟨bytes "a", none⟩], .file (bytes "old") 0o600)]⟩, 0o022, 0, []⟩
    let xs : List Action := [.create 1 (bytes "d/a") 19, .write 1 (bytes "x"), .commit 1]
    let ys : List Action := [.create 2 (bytes "d/b") 18, .write 2 (bytes "y")]
    let zs : List Action := [.create 1 (bytes "d/a") 19, .create 2 (bytes "d/b") 18,
      .write 2 (bytes "y"), .write 1 (bytes "x"), .commit 1]
    let ws : List Action := [.create 2 (bytes "d/b") 18, .create 1 (bytes "d/a") 19,
      .write 1 (bytes "x"), .commit 1, .write 2 (bytes "y")]
    (∀ l, v.tree.get? l ≠ none → Location.IsPlain l) ∧ Path.IsOrdinary (bytes "d/a") ∧
      Path.IsOrdinary (bytes "d/b") ∧ Path.Unrelated (bytes "d/a") (bytes "d/b") ∧
      Interleaves xs ys zs ∧ Interleaves xs ys ws ∧
      Interleaves (transcript ⟨v, []⟩ xs) (transcript ⟨v, []⟩ ys) (transcript ⟨v, []⟩ zs) ∧
      (run ⟨v, []⟩ zs).1.volume.tree ≠ (run ⟨v, []⟩ ws).1.volume.tree ∧
      ∃ ρ : Equiv.Perm Nat, ∀ l, (run ⟨v, []⟩ ws).1.volume.tree.get? (l.renumber ρ) =
        (run ⟨v, []⟩ zs).1.volume.tree.get? l := by
  intro v xs ys zs ws
  have hv : ∀ l, v.tree.get? l ≠ none → Location.IsPlain l :=
    Tree.isPlain_of_entries (by simp [v, Location.IsPlain])
  have hp : Path.IsOrdinary (bytes "d/a") := by decide +kernel
  have hq : Path.IsOrdinary (bytes "d/b") := by decide +kernel
  have hpq : Path.Unrelated (bytes "d/a") (bytes "d/b") := by decide +kernel
  have hxs : ∀ a ∈ xs, a.IsOn 1 (bytes "d/a") := by
    simp only [xs, List.forall_mem_cons]
    exact ⟨.create _, .write _, .commit, List.forall_mem_nil _⟩
  have hys : ∀ a ∈ ys, a.IsOn 2 (bytes "d/b") := by
    simp only [ys, List.forall_mem_cons]
    exact ⟨.create _, .write _, List.forall_mem_nil _⟩
  have hzs : Interleaves xs ys zs := .left (.right (.right (.left (.left .nil))))
  have hws : Interleaves xs ys ws := .right (.left (.left (.left (.right .nil))))
  obtain ⟨hscripts, -, hρ⟩ :=
    run_interleaved v hv (i := 1) (j := 2) (by decide) hp hq hpq hxs hys hzs hws
  exact ⟨hv, hp, hq, hpq, hzs, hws, hscripts, by decide +kernel, hρ⟩

end Session

end Teeny
