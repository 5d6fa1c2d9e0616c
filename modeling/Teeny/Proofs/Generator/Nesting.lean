import Teeny.Proofs.Generator.Blocks

/-!
# The bound on nested blocks

A bound on the number of open blocks changes nothing about a run but where it may end. A block is
entered at the first token behind the line that opens it (`State.entered?`), and this is the only
place where the bound is looked at. So the run with a bound does the steps of the run without one,
until a block is entered that is too deep (`steps_of_deepest_le`, `steps_of_lt_deepest`).

How deep a block is depends on the words read before it: it is the number of blocks opened less the
number of blocks closed (`Enters.depth_eq`), so blocks that follow one another are no deeper than
each alone.
-/

namespace Teeny

namespace State

open Move

variable {bound : Option Nat} {s : State} {t : Token}

/-! ## Blocks that are entered -/

/-- The depth of the block that a token enters, if it enters one. A block is entered at the first
token behind the line that opens it and the empty lines there. -/
def entered? (s : State) (t : Token) : Option Nat :=
  match s.phase with
  | .blockBody _ => if t.kind = .newline then none else some (s.blocks.length + 1)
  | _ => none

/-- The depths of the blocks that are entered on tokens, in order, with no bound on them. -/
def depths : State → List Token → List Nat
  | _, [] => []
  | s, t :: ts =>
    (s.entered? t).toList ++
      match (s.step none t).progress with
      | .more s' => s'.depths ts
      | .finished _ | .refused _ => []

/-- The depth of the deepest block that is entered on tokens; nothing is entered at depth zero. -/
def deepest (s : State) (ts : List Token) : Nat := (s.depths ts).foldr max 0

theorem entered?_eq_some_iff {k : Nat} :
    s.entered? t = some k ↔
      ∃ b, s.phase = .blockBody b ∧ t.kind ≠ .newline ∧ k = s.blocks.length + 1 := by
  unfold entered?
  split
  next b hphase =>
    by_cases ht : t.kind = .newline
    · simp [ht]
    · simp [ht, hphase, eq_comm]
  next hphase =>
    constructor
    · intro h
      cases h
    · rintro ⟨b, hb, -⟩
      exact absurd hb (hphase b)

theorem deepest_le_iff {ts : List Token} {n : Nat} :
    s.deepest ts ≤ n ↔ ∀ k ∈ s.depths ts, k ≤ n := by
  unfold deepest
  induction s.depths ts with
  | nil => simp
  | cons k ks ih => rw [List.foldr_cons, Nat.max_le, List.forall_mem_cons, ih]

theorem depths_cons_of_more {s' : State} {es : List Emission} (h : s.step none t = ⟨es, .more s'⟩)
    (ts : List Token) : s.depths (t :: ts) = (s.entered? t).toList ++ s'.depths ts := by
  rw [depths, h]

theorem deepest_cons_le_iff {ts : List Token} {n : Nat} :
    s.deepest (t :: ts) ≤ n ↔
      (∀ k, s.entered? t = some k → k ≤ n) ∧
        ∀ s', (s.step none t).progress = .more s' → s'.deepest ts ≤ n := by
  have hfirst : (∀ k ∈ (s.entered? t).toList, k ≤ n) ↔ ∀ k, s.entered? t = some k → k ≤ n := by
    simp only [Option.mem_toList]
  rw [deepest_le_iff, depths, List.forall_mem_append, hfirst]
  refine and_congr_right fun _ => ?_
  cases (s.step none t).progress with
  | more s' => simp [deepest_le_iff]
  | finished s' => simp
  | refused d => simp

/-- The depths are those of the tokens that enter a block and that the steps come to. -/
theorem mem_depths_iff {ts : List Token} {k : Nat} :
    k ∈ s.depths ts ↔
      ∃ before t after es s', ts = before ++ t :: after ∧
        s.steps none before = ⟨es, .more s'⟩ ∧ s'.entered? t = some k := by
  induction ts generalizing s with
  | nil => simp [depths]
  | cons t ts ih =>
    constructor
    · intro h
      rcases List.mem_append.1 h with h | h
      · exact ⟨[], t, ts, [], s, rfl, rfl, Option.mem_toList.1 h⟩
      · cases hm : s.step none t with
        | mk es p =>
          rw [hm] at h
          cases p with
          | more s₁ =>
            obtain ⟨before, u, after, fs, s', rfl, hsteps, hentered⟩ := ih.1 h
            refine ⟨t :: before, u, after, es ++ fs, s', rfl, ?_, hentered⟩
            rw [steps_cons, hm, andThen_more, hsteps, after_mk]
          | finished s₁ => cases h
          | refused d => cases h
    · rintro ⟨before, u, after, fs, s', hsplit, hsteps, hentered⟩
      rcases List.cons_eq_append_iff.1 hsplit with ⟨rfl, hts⟩ | ⟨before', rfl, hts⟩
      · cases hts
        cases hsteps
        exact List.mem_append_left _ (Option.mem_toList.2 hentered)
      · rw [steps_cons] at hsteps
        cases hm : s.step none t with
        | mk es p =>
          rw [hm] at hsteps
          cases p with
          | more s₁ =>
            rw [depths_cons_of_more hm]
            refine List.mem_append_right _ (ih.2 ?_)
            cases hrest : s₁.steps none before' with
            | mk gs q =>
              rw [andThen_more, hrest, after_mk] at hsteps
              cases hsteps
              exact ⟨before', u, after, gs, s', hts, hrest, hentered⟩
          | finished s₁ => cases hsteps
          | refused d => cases hsteps

/-! ## Steps with a bound and without one -/

variable {n : Nat}

/-- The bound matters only to a token that enters a block which is too deep. -/
theorem step_of_entered_le (h : ∀ k, s.entered? t = some k → k ≤ n) :
    s.step (some n) t = s.step none t := by
  cases hphase : s.phase <;> simp only [step, hphase]
  case blockBody b =>
    by_cases ht : t.kind = .newline
    · rw [blockBody_newline ht, blockBody_newline ht]
    · have hk := h _ (entered?_eq_some_iff.2 ⟨b, hphase, ht, rfl⟩)
      rw [blockBody_of_allows ht (Depth.allows_some.2 hk), blockBody_of_allows ht rfl]

/-- That token is refused, after the code in front of the block that both runs emit. -/
theorem step_of_lt_entered {k : Nat} (h : s.entered? t = some k) (hk : n < k) :
    s.step (some n) t =
        ⟨[.line (bytes ") \x7b")], .refused ⟨t.position, .nestedTooDeep n⟩⟩ ∧
      [.line (bytes ") \x7b")] <+: (s.step none t).emissions := by
  obtain ⟨b, hphase, ht, rfl⟩ := entered?_eq_some_iff.1 h
  have hallows : Depth.allows (some n) (s.blocks.length + 1) = false :=
    decide_eq_false (Nat.not_le.2 hk)
  obtain ⟨m, hm, hstep⟩ := blockBody_of_not_allows b ht hallows
  have hfree : s.blockBody none b t = .after [.line (bytes ") \x7b")] ((s.openBlock b).item t) :=
    blockBody_of_allows ht rfl
  cases hm
  simp only [step, hphase, hstep, hfree]
  exact ⟨rfl, List.prefix_append _ _⟩

/-- A step opens no more blocks than the one that it enters. -/
theorem blocks_le_of_step {s' : State} (h : (s.step bound t).progress = .more s')
    (hs : s.blocks.length ≤ n) (hentered : ∀ k, s.entered? t = some k → k ≤ n) :
    s'.blocks.length ≤ n := by
  cases shift_of_step h with
  | opens b hkind hphase hstate =>
    subst hstate
    exact hs
  | line b hkind hphase hstate =>
    subst hstate
    exact hs
  | closes b hkind hblocks hphase =>
    have hlength : s.around.length ≤ s.blocks.length + 1 := by
      unfold around
      split <;> simp
    rw [hblocks, List.length_cons] at hlength
    omega
  | stays hkind hblocks hphase hbody hline =>
    rw [hblocks]
    unfold around
    split
    next b hb => exact absurd hb (hline b)
    next b hb => exact hentered _ (entered?_eq_some_iff.2 ⟨b, hb, hbody b hb, rfl⟩)
    next => exact hs

/-- Where no block is too deep, the bound changes nothing. -/
theorem steps_of_deepest_le {ts : List Token} (h : s.deepest ts ≤ n) :
    s.steps (some n) ts = s.steps none ts := by
  induction ts generalizing s with
  | nil => rfl
  | cons t ts ih =>
    obtain ⟨hfirst, hrest⟩ := deepest_cons_le_iff.1 h
    rw [steps_cons, steps_cons, step_of_entered_le hfirst]
    cases hm : s.step none t with
    | mk es p =>
      cases p with
      | more s' => rw [andThen_more, andThen_more, ih (hrest s' (congrArg Move.progress hm))]
      | finished s' => rfl
      | refused d => rfl

/-- Where a block is too deep, the first such block is one deeper than allowed, and the run with the
bound ends there. -/
theorem steps_of_lt_deepest {ts : List Token} (hs : s.blocks.length ≤ n) (h : n < s.deepest ts) :
    ∃ before t after es s', ts = before ++ t :: after ∧
      s.steps none before = ⟨es, .more s'⟩ ∧ s'.entered? t = some (n + 1) ∧
      s.deepest before ≤ n ∧
      s.steps (some n) ts =
        ⟨es ++ [.line (bytes ") \x7b")], .refused ⟨t.position, .nestedTooDeep n⟩⟩ ∧
      es ++ [.line (bytes ") \x7b")] <+: (s.steps none ts).emissions := by
  induction ts generalizing s with
  | nil => cases h
  | cons t ts ih =>
    by_cases hfirst : ∀ k, s.entered? t = some k → k ≤ n
    · -- `t` enters nothing too deep, so both runs go on, to a block behind it
      obtain ⟨s₁, hp, hlt⟩ : ∃ s₁, (s.step none t).progress = .more s₁ ∧ n < s₁.deepest ts := by
        refine Classical.byContradiction fun hnone => Nat.not_le.2 h ?_
        refine deepest_cons_le_iff.2 ⟨hfirst, fun s₁ hp => Nat.le_of_not_lt fun hlt => ?_⟩
        exact hnone ⟨s₁, hp, hlt⟩
      cases hm : s.step none t with
      | mk es p =>
        rw [hm] at hp
        subst hp
        have hblocks := blocks_le_of_step (congrArg Move.progress hm) hs hfirst
        obtain ⟨before, u, after, fs, s', rfl, hsteps, hentered, hbefore, hrefused, hprefix⟩ :=
          ih hblocks hlt
        refine ⟨t :: before, u, after, es ++ fs, s', rfl, ?_, hentered, ?_, ?_, ?_⟩
        · rw [steps_cons, hm, andThen_more, hsteps, after_mk]
        · refine deepest_cons_le_iff.2 ⟨hfirst, fun s₂ hs₂ => ?_⟩
          rw [hm] at hs₂
          cases hs₂
          exact hbefore
        · rw [steps_cons, step_of_entered_le hfirst, hm, andThen_more, hrefused, after_mk,
            List.append_assoc]
        · rw [steps_cons, hm, andThen_more, List.append_assoc]
          exact (List.prefix_append_right_inj es).2 hprefix
    · obtain ⟨k, hk, hlt⟩ : ∃ k, s.entered? t = some k ∧ n < k := by
        simpa using hfirst
      obtain ⟨hstep, hprefix⟩ := step_of_lt_entered hk hlt
      -- no more than `n` blocks are open, so this one is the next deeper
      have hdepth : k = n + 1 := by
        obtain ⟨b, -, -, rfl⟩ := entered?_eq_some_iff.1 hk
        omega
      subst hdepth
      refine ⟨[], t, ts, [], s, rfl, rfl, hk, Nat.zero_le n, ?_, ?_⟩
      · rw [steps_cons, hstep]
        rfl
      · rw [steps_cons]
        cases hm : s.step none t with
        | mk es p =>
          rw [hm] at hprefix
          cases p with
          | more s' => exact hprefix.trans (List.prefix_append _ _)
          | finished s' => exact hprefix
          | refused d => exact hprefix

end State

/-! ## Runs with a bound and without one -/

namespace Run

/-- The run without a bound comes to the token `t` behind the tokens `before`, and enters a block of
the given depth there. -/
structure Enters (file source : Bytes) (before : List Token) (t : Token) (depth : Nat) : Prop where
  acted : ∃ after, (scan file source).acted = before ++ t :: after
  reached : ∃ es s, State.start.steps none before = ⟨es, .more s⟩ ∧ s.entered? t = some depth

/-- The depth of the deepest block that the run without a bound enters. -/
def deepest (file source : Bytes) : Nat := State.start.deepest (scan file source).acted

variable {file source : Bytes}

/-- What is entered on the tokens of a source is what the run enters. -/
theorem mem_depths_acted_iff {k : Nat} :
    k ∈ State.start.depths (scan file source).acted ↔
      ∃ before t, Enters file source before t k := by
  rw [State.mem_depths_iff]
  constructor
  · rintro ⟨before, t, after, es, s, hacted, hsteps, hentered⟩
    exact ⟨before, t, ⟨after, hacted⟩, es, s, hsteps, hentered⟩
  · rintro ⟨before, t, ⟨after, hacted⟩, es, s, hsteps, hentered⟩
    exact ⟨before, t, after, es, s, hacted, hsteps, hentered⟩

theorem Enters.le_deepest {before : List Token} {t : Token} {k : Nat}
    (h : Enters file source before t k) : k ≤ deepest file source :=
  State.deepest_le_iff.1 (Nat.le_refl _) k (mem_depths_acted_iff.2 ⟨before, t, h⟩)

theorem exists_enters_deepest (h : deepest file source ≠ 0) :
    ∃ before t, Enters file source before t (deepest file source) := by
  rw [← mem_depths_acted_iff]
  -- the greatest of some numbers is one of them, unless it is the zero they are compared with
  have hmem : ∀ ks : List Nat, ks.foldr max 0 ≠ 0 → ks.foldr max 0 ∈ ks := by
    intro ks
    induction ks with
    | nil => exact fun h => absurd rfl h
    | cons k ks ih =>
      intro hne
      rw [List.foldr_cons] at hne ⊢
      rcases Nat.le_total k (ks.foldr max 0) with hle | hle
      · rw [Nat.max_eq_right hle] at hne ⊢
        exact List.mem_cons_of_mem k (ih hne)
      · rw [Nat.max_eq_left hle]
        exact List.mem_cons_self ..
  exact hmem _ h

/-- The depth of a block is the number of blocks that were opened and not closed. -/
theorem Enters.depth_eq {before : List Token} {t : Token} {k : Nat}
    (h : Enters file source before t k) :
    k + before.countP (·.kind.closesBlock) = before.countP (·.kind.opensBlock) := by
  obtain ⟨-, es, s, hsteps, hentered⟩ := h
  obtain ⟨b, hphase, -, rfl⟩ := State.entered?_eq_some_iff.1 hentered
  have hcounted := (State.nested_start.steps hsteps).counted
  rwa [State.around, hphase] at hcounted

/-- A block is entered at the first token behind the line that opens it. -/
theorem Enters.exists_word {before : List Token} {t : Token} {k : Nat}
    (h : Enters file source before t k) :
    t.kind ≠ .newline ∧
      ∃ front word lines, before = front ++ word :: lines ∧
        (word.kind = .keyword .THEN ∨ word.kind = .keyword .REPEAT) ∧
        ∀ l ∈ lines, l.kind = .newline := by
  obtain ⟨-, es, s, hsteps, hentered⟩ := h
  obtain ⟨b, hphase, ht, -⟩ := State.entered?_eq_some_iff.1 hentered
  obtain ⟨front, word, lines, hbefore, hword, hlines⟩ :=
    (State.nested_start.steps hsteps).body b hphase
  refine ⟨ht, front, word, lines, hbefore, ?_, hlines⟩
  cases b with
  | conditional => exact Or.inl hword
  | loop => exact Or.inr hword

/-- Where the run without a bound enters nothing too deep, the run with the bound is the same. -/
theorem of_deepest_le {n : Nat} (h : deepest file source ≤ n) :
    (ofSource (some n) file source).emissions = (ofSource none file source).emissions ∧
      (ofSource (some n) file source).failure = (ofSource none file source).failure := by
  obtain ⟨hes, hfailure⟩ := ofSource_eq_steps (some n) file source
  obtain ⟨hes', hfailure'⟩ := ofSource_eq_steps none file source
  have hsteps := State.steps_of_deepest_le h
  rw [hes, hes', hfailure, hfailure', hsteps]
  exact ⟨rfl, rfl⟩

/-- Where the run without a bound enters a block that is too deep, the run with the bound ends at
the first such block, with what the other run has emitted up to there. -/
theorem of_lt_deepest {n : Nat} (h : n < deepest file source) :
    ∃ before t, Enters file source before t (n + 1) ∧
      (∀ before' t' k, Enters file source before' t' k → before'.length < before.length → k ≤ n) ∧
      (ofSource (some n) file source).failure = some (.single ⟨t.position, .nestedTooDeep n⟩) ∧
      (ofSource (some n) file source).emissions <+: (ofSource none file source).emissions := by
  obtain ⟨before, t, after, es, s, hacted, hsteps, hentered, hbefore, hrefused, hprefix⟩ :=
    State.steps_of_lt_deepest (Nat.zero_le n) h
  obtain ⟨hes, hfailure⟩ := ofSource_eq_steps (some n) file source
  refine ⟨before, t, ⟨⟨after, hacted⟩, es, s, hsteps, hentered⟩, ?_, ?_, ?_⟩
  · intro before' t' k hk hlength
    obtain ⟨⟨after', hacted'⟩, es', s', hsteps', hentered'⟩ := hk
    -- the earlier block is entered on the tokens before this one
    rw [hacted] at hacted'
    rcases List.append_eq_append_iff.1 hacted' with ⟨more, rfl, -⟩ | ⟨more, hmore, htail⟩
    · rw [List.length_append] at hlength
      omega
    · cases more with
      | nil =>
        simp only [List.append_nil] at hmore
        subst hmore
        exact absurd hlength (Nat.lt_irrefl _)
      | cons u more =>
        obtain ⟨rfl, -⟩ := List.cons.inj htail
        exact State.deepest_le_iff.1 hbefore k
          (State.mem_depths_iff.2 ⟨before', t', more, es', s', hmore, hsteps', hentered'⟩)
  · rw [hfailure, hrefused]
    rfl
  · rw [hes, hrefused, (ofSource_eq_steps none file source).1]
    exact hprefix

/-- What is accepted with a bound is accepted with a wider one and with none. -/
theorem accepted_of_accepted {n : Nat} (h : (ofSource (some n) file source).failure = none) :
    (ofSource none file source).failure = none ∧
      ∀ n', n ≤ n' → (ofSource (some n') file source).failure = none := by
  have hle : deepest file source ≤ n := by
    refine Nat.le_of_not_lt fun hlt => ?_
    obtain ⟨before, t, -, -, hfailure, -⟩ := of_lt_deepest hlt
    rw [hfailure] at h
    cases h
  have hnone := (of_deepest_le hle).2.symm.trans h
  exact ⟨hnone, fun n' hn' => (of_deepest_le (Nat.le_trans hle hn')).2.trans hnone⟩

/-- A run with a bound on the open blocks, beside a run without one on the same source. If the other
run enters no block that is too deep, both emit and report the same. If it enters one, the run with
the bound refuses the first token inside the first such block, which is one deeper than allowed, and
has emitted the beginning of what the other run emits. What is accepted with a bound is accepted
with every wider one and with none; and how deep a block is does not depend on the blocks before it
that have been closed. -/
theorem bound_cuts_short (n m : Int) (hn : 0 < n) (hm : m ≤ 0) (file source : Bytes) :
    ((deepest file source : Int) ≤ n →
      (ofSource (Depth.bound n) file source).emissions =
          (ofSource (Depth.bound m) file source).emissions ∧
        (ofSource (Depth.bound n) file source).failure =
          (ofSource (Depth.bound m) file source).failure) ∧
    (n < deepest file source →
      ∃ front word lines t, Enters file source (front ++ word :: lines) t (n.toNat + 1) ∧
        (∀ before t' k, Enters file source before t' k →
          before.length < (front ++ word :: lines).length → (k : Int) ≤ n) ∧
        (word.kind = .keyword .THEN ∨ word.kind = .keyword .REPEAT) ∧
        (∀ l ∈ lines, l.kind = .newline) ∧ t.kind ≠ .newline ∧
        (∃ d, (ofSource (Depth.bound n) file source).failure = some (.single d) ∧
          d.position = t.position ∧ d.fault.kind = .syntactic ∧
          d.fault.message = bytes "blocks nested deeper than " ++ Bytes.decimal n.toNat) ∧
        (ofSource (Depth.bound n) file source).emissions <+:
          (ofSource (Depth.bound m) file source).emissions) ∧
    ((∀ before t k, Enters file source before t k → k ≤ deepest file source) ∧
      (deepest file source = 0 ∨
        ∃ before t, Enters file source before t (deepest file source))) ∧
    ((ofSource (Depth.bound n) file source).failure = none →
      (ofSource (Depth.bound m) file source).failure = none ∧
        ∀ n', n ≤ n' → (ofSource (Depth.bound n') file source).failure = none) ∧
    ∀ before t k, Enters file source before t k →
      k + before.countP (·.kind.closesBlock) = before.countP (·.kind.opensBlock) := by
  have hbound : ∀ n : Int, 0 < n → Depth.bound n = some n.toNat := fun n hn =>
    if_neg (Int.not_le.2 hn)
  have hnone : Depth.bound m = none := if_pos hm
  rw [hbound n hn, hnone]
  refine ⟨fun h => of_deepest_le (by omega), fun h => ?_,
    ⟨fun before t k => Enters.le_deepest, ?_⟩, fun h => ?_, fun before t k => Enters.depth_eq⟩
  · have hlt : n.toNat < deepest file source := by omega
    obtain ⟨before, t, henters, hfirst, hfailure, hprefix⟩ := of_lt_deepest hlt
    obtain ⟨ht, front, word, lines, rfl, hword, hlines⟩ := henters.exists_word
    refine ⟨front, word, lines, t, henters, fun before' t' k hk hlength => ?_, hword, hlines, ht,
      ⟨_, hfailure, rfl, rfl, rfl⟩, hprefix⟩
    have hle := hfirst before' t' k hk hlength
    omega
  · exact Decidable.or_iff_not_imp_left.2 exists_enters_deepest
  · obtain ⟨hfree, hwider⟩ := accepted_of_accepted h
    refine ⟨hfree, fun n' hn' => ?_⟩
    rw [hbound n' (by omega)]
    exact hwider n'.toNat (by omega)

/-- With one block allowed, the second of two nested ones is refused, after an empty line, and two
blocks one after the other are not. -/
theorem bound_cuts_short_of_nested :
    (∃ before t, Enters [] (bytes "IF 1<2 THEN\nWHILE 1<2 REPEAT\n\nENDWHILE\nENDIF") before t 2 ∧
      t.kind ≠ .newline ∧
      ∃ d, (ofSource (Depth.bound 1) []
          (bytes "IF 1<2 THEN\nWHILE 1<2 REPEAT\n\nENDWHILE\nENDIF")).failure = some (.single d) ∧
        d.position = t.position ∧ d.fault.kind = .syntactic ∧
        d.fault.message = bytes "blocks nested deeper than " ++ Bytes.decimal 1) ∧
      (ofSource (Depth.bound 1) [] (bytes "IF 1<2 THEN\nENDIF\nIF 1<2 THEN\nENDIF")).failure =
        (ofSource (Depth.bound (-1)) []
          (bytes "IF 1<2 THEN\nENDIF\nIF 1<2 THEN\nENDIF")).failure := by
  obtain ⟨-, hdeep, -⟩ := bound_cuts_short 1 0 (by decide) (by decide) []
    (bytes "IF 1<2 THEN\nWHILE 1<2 REPEAT\n\nENDWHILE\nENDIF")
  obtain ⟨front, word, lines, t, henters, -, -, -, ht, hfailure, -⟩ := hdeep (by decide +kernel)
  refine ⟨⟨_, t, henters, ht, hfailure⟩, ?_⟩
  exact ((bound_cuts_short 1 (-1) (by decide) (by decide) [] _).1 (by decide +kernel)).2

end Run

end Teeny
