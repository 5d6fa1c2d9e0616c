import Teeny.Proofs.Generator.Steps
import Teeny.Proofs.Grammar.Tree

/-!
# The rules of scope, one mention at a time

`Scoped` states the rules of scope for a whole program. The generator checks them as it goes: it
knows the variables assigned and the labels declared so far, and looks at jumps only at the end.
`State.admits` is one such check, `State.mention` what is remembered of a mention, and
`scoped_iff` says that the checks together are the rules.
-/

namespace Teeny

namespace State

/-- Whether a name may be mentioned this way. -/
def admits (s : State) : Mention → Bool
  | .use x => s.assigned.contains x
  | .label x => !s.labels.contains x
  | .assign _ | .jump _ => true

/-- What is known behind a mention at `place`. -/
def mention (place : Position) (s : State) : Mention → State
  | .use _ => s
  | .assign x => s.assign x
  | .label x => { s with labels := s.labels ++ [x] }
  | .jump x => { s with jumps := s.jumps ++ [(x, place)] }

/-- What is known behind some mentions. -/
def mentionAll (place : Position) (s : State) (ms : List Mention) : State :=
  ms.foldl (mention place) s

/-- Whether names may be mentioned one after the other. -/
def admitsAll (place : Position) (s : State) : List Mention → Bool
  | [] => true
  | m :: ms => s.admits m && (s.mention place m).admitsAll place ms

variable {place : Position}

@[simp] theorem mentionAll_nil (s : State) : s.mentionAll place [] = s := rfl

@[simp] theorem mentionAll_cons (s : State) (m : Mention) (ms : List Mention) :
    s.mentionAll place (m :: ms) = (s.mention place m).mentionAll place ms := rfl

theorem mentionAll_append (s : State) (ms ns : List Mention) :
    s.mentionAll place (ms ++ ns) = (s.mentionAll place ms).mentionAll place ns :=
  List.foldl_append

theorem admitsAll_append (s : State) (ms ns : List Mention) :
    s.admitsAll place (ms ++ ns) =
      (s.admitsAll place ms && (s.mentionAll place ms).admitsAll place ns) := by
  induction ms generalizing s with
  | nil => rfl
  | cons m ms ih => simp [admitsAll, ih, Bool.and_assoc]

/-! ## What a mention leaves alone -/

@[simp] theorem phase_mention (s : State) (m : Mention) : (s.mention place m).phase = s.phase := by
  cases m <;> simp [mention]

@[simp] theorem blocks_mention (s : State) (m : Mention) :
    (s.mention place m).blocks = s.blocks := by
  cases m <;> simp [mention]

/-- Neither the phase nor the open blocks matter to a mention. -/
theorem mention_with (s : State) (phase : Phase) (blocks : List Block) (m : Mention) :
    ({ s with phase, blocks } : State).mention place m =
      { s.mention place m with phase, blocks } := by
  cases m <;> simp only [mention, assign]
  split <;> rfl

theorem admits_with (s : State) (phase : Phase) (blocks : List Block) (m : Mention) :
    ({ s with phase, blocks } : State).admits m = s.admits m := by
  cases m <;> rfl

theorem phase_mentionAll (s : State) (ms : List Mention) :
    (s.mentionAll place ms).phase = s.phase := by
  induction ms generalizing s with
  | nil => rfl
  | cons m ms ih => rw [mentionAll_cons, ih, phase_mention]

theorem blocks_mentionAll (s : State) (ms : List Mention) :
    (s.mentionAll place ms).blocks = s.blocks := by
  induction ms generalizing s with
  | nil => rfl
  | cons m ms ih => rw [mentionAll_cons, ih, blocks_mention]

theorem mentionAll_with (s : State) (phase : Phase) (blocks : List Block) (ms : List Mention) :
    ({ s with phase, blocks } : State).mentionAll place ms =
      { s.mentionAll place ms with phase, blocks } := by
  induction ms generalizing s with
  | nil => rfl
  | cons m ms ih => rw [mentionAll_cons, mention_with, ih, mentionAll_cons]

theorem admitsAll_with (s : State) (phase : Phase) (blocks : List Block) (ms : List Mention) :
    ({ s with phase, blocks } : State).admitsAll place ms = s.admitsAll place ms := by
  induction ms generalizing s with
  | nil => rfl
  | cons m ms ih => rw [admitsAll, admitsAll, admits_with, mention_with, ih]

theorem mentionAll_enter (s : State) (phase : Phase) (ms : List Mention) :
    (s.enter phase).mentionAll place ms = (s.mentionAll place ms).enter phase := by
  induction ms generalizing s with
  | nil => rfl
  | cons m ms ih =>
    have hmention : (s.enter phase).mention place m = (s.mention place m).enter phase := by
      cases m with
      | assign x => exact assign_enter s phase x
      | _ => rfl
    rw [mentionAll_cons, hmention, ih, mentionAll_cons]

/-! ## What is known behind mentions -/

theorem assigned_mentionAll (s : State) (ms : List Mention) :
    (s.mentionAll place ms).assigned = Mention.learnAll s.assigned ms := by
  induction ms generalizing s with
  | nil => rfl
  | cons m ms ih =>
    rw [mentionAll_cons, ih]
    refine congrArg (Mention.learnAll · ms) ?_
    cases m with
    | assign x =>
      by_cases hx : x ∈ s.assigned <;> simp [mention, assign, Mention.learn, hx]
    | _ => rfl

theorem mem_assigned_mention {s : State} {m : Mention} {x : Bytes} :
    x ∈ (s.mention place m).assigned ↔ x ∈ s.assigned ∨ m = .assign x := by
  cases m with
  | assign y =>
    simp only [mention, assign]
    split <;> grind
  | _ => simp [mention]

theorem mem_labels_mention {s : State} {m : Mention} {x : Bytes} :
    x ∈ (s.mention place m).labels ↔ x ∈ s.labels ∨ m = .label x := by
  cases m with
  | assign y =>
    simp only [mention, assign]
    split <;> simp
  | label y => simp [mention, eq_comm]
  | _ => simp [mention]

theorem mem_jumps_mention {s : State} {m : Mention} {x : Bytes} :
    x ∈ (s.mention place m).jumps.map Prod.fst ↔ x ∈ s.jumps.map Prod.fst ∨ m = .jump x := by
  cases m with
  | assign y =>
    simp only [mention, assign]
    split <;> simp
  | jump y => simp [mention, eq_comm]
  | _ => simp [mention]

/-- What holds of names a state knows by one of its lists, carried along mentions. -/
theorem mem_mentionAll (known : State → List Bytes) {kind : Bytes → Mention}
    (hstep : ∀ s m x, x ∈ known (mention place s m) ↔ x ∈ known s ∨ m = kind x)
    {s : State} {ms : List Mention} {x : Bytes} :
    x ∈ known (s.mentionAll place ms) ↔ x ∈ known s ∨ kind x ∈ ms := by
  induction ms generalizing s with
  | nil => simp
  | cons m ms ih =>
    rw [mentionAll_cons, ih, hstep, List.mem_cons, or_assoc, eq_comm (a := m)]

/-- The checks on a whole list are the check on each mention in it, behind those before it. -/
theorem admitsAll_iff {s : State} {ms : List Mention} :
    s.admitsAll place ms = true ↔
      ∀ before m after, ms = before ++ m :: after →
        (s.mentionAll place before).admits m = true := by
  induction ms generalizing s with
  | nil => simp [admitsAll]
  | cons first ms ih =>
    rw [admitsAll, Bool.and_eq_true_iff, ih]
    constructor
    · rintro ⟨hfirst, hrest⟩ before m after h
      rcases List.cons_eq_append_iff.1 h with ⟨rfl, hm⟩ | ⟨before', rfl, hms⟩
      · cases hm
        exact hfirst
      · exact hrest before' m after hms
    · intro h
      refine ⟨h [] first ms rfl, ?_⟩
      rintro before m after rfl
      exact h (first :: before) m after rfl

/-- Where only uses are mentioned, nothing new becomes known. -/
theorem mentionAll_of_uses {s : State} {ms : List Mention} (h : ∀ m ∈ ms, ∃ x, m = .use x) :
    s.mentionAll place ms = s := by
  induction ms with
  | nil => rfl
  | cons m ms ih =>
    obtain ⟨x, rfl⟩ := h m (List.mem_cons_self ..)
    exact ih fun n hn => h n (List.mem_cons_of_mem _ hn)

theorem admitsAll_of_uses {s : State} {ms : List Mention} (h : ∀ m ∈ ms, ∃ x, m = .use x) :
    s.admitsAll place ms = true ↔ ∀ m ∈ ms, s.admits m = true := by
  induction ms with
  | nil => simp [admitsAll]
  | cons m ms ih =>
    obtain ⟨x, rfl⟩ := h m (List.mem_cons_self ..)
    rw [admitsAll, Bool.and_eq_true_iff, List.forall_mem_cons]
    exact and_congr_right fun _ => ih fun n hn => h n (List.mem_cons_of_mem _ hn)

/-! ## The end of the program -/

theorem missingLabels_eq_nil_iff {known : List Bytes} {jumps : List (Bytes × Position)} :
    missingLabels known jumps = [] ↔ ∀ x ∈ jumps.map Prod.fst, x ∈ known := by
  induction jumps with
  | nil => simp [missingLabels]
  | cons jump jumps ih =>
    obtain ⟨x, position⟩ := jump
    rw [missingLabels]
    split
    next h =>
      rw [ih, List.map_cons, List.forall_mem_cons]
      simp [h]
    next h => simp [h]

theorem verdict_eq_none_iff {s : State} :
    s.verdict = none ↔ ∀ x ∈ s.jumps.map Prod.fst, x ∈ s.labels := by
  rw [← missingLabels_eq_nil_iff]
  unfold verdict
  split <;> simp_all

/-! ## The rules as a whole -/

theorem mem_assigned_mentionAll {ms : List Mention} {x : Bytes} :
    x ∈ (start.mentionAll place ms).assigned ↔ .assign x ∈ ms :=
  (mem_mentionAll assigned fun _ _ _ => mem_assigned_mention).trans (by simp [start])

theorem mem_labels_mentionAll {ms : List Mention} {x : Bytes} :
    x ∈ (start.mentionAll place ms).labels ↔ .label x ∈ ms :=
  (mem_mentionAll labels fun _ _ _ => mem_labels_mention).trans (by simp [start])

theorem mem_jumps_mentionAll {ms : List Mention} {x : Bytes} :
    x ∈ (start.mentionAll place ms).jumps.map Prod.fst ↔ .jump x ∈ ms :=
  (mem_mentionAll (fun s => s.jumps.map Prod.fst) fun _ _ _ => mem_jumps_mention).trans
    (by simp [start])

end State

/-- The rules of scope that do not look ahead: a variable is assigned before it is used, and a label
is declared at most once. -/
structure Introduced (ms : List Mention) : Prop where
  assigned : ∀ before x after, ms = before ++ .use x :: after → .assign x ∈ before
  declaredOnce : ∀ before x after, ms = before ++ .label x :: after → .label x ∉ before

theorem scoped_iff_introduced {ms : List Mention} :
    Scoped ms ↔ Introduced ms ∧ ∀ x, .jump x ∈ ms → .label x ∈ ms :=
  ⟨fun h => ⟨⟨h.assigned, h.declaredOnce⟩, h.reached⟩,
    fun h => ⟨h.1.assigned, h.1.declaredOnce, h.2⟩⟩

namespace State

/-- The rules that do not look ahead are the checks on each mention. -/
theorem introduced_iff (place : Position) {ms : List Mention} :
    Introduced ms ↔ start.admitsAll place ms = true := by
  rw [admitsAll_iff]
  constructor
  · rintro ⟨huse, honce⟩ before m after h
    cases m with
    | use x => exact List.contains_iff_mem.2 (mem_assigned_mentionAll.2 (huse before x after h))
    | label x =>
      have hx : x ∉ (start.mentionAll place before).labels := fun hx =>
        honce before x after h (mem_labels_mentionAll.1 hx)
      simp [admits, hx]
    | assign x => rfl
    | jump x => rfl
  · intro hadmits
    refine ⟨?_, ?_⟩
    · intro before x after h
      exact mem_assigned_mentionAll.1 (List.contains_iff_mem.1 (hadmits before (.use x) after h))
    · intro before x after h hx
      have hlabel := hadmits before (.label x) after h
      simp [admits, mem_labels_mentionAll.2 hx] at hlabel

/-- The rules of scope are the checks on each mention and the one at the end. -/
theorem scoped_iff (place : Position) {ms : List Mention} :
    Scoped ms ↔
      start.admitsAll place ms = true ∧ (start.mentionAll place ms).verdict = none := by
  rw [scoped_iff_introduced, introduced_iff place, verdict_eq_none_iff]
  refine and_congr_right fun _ => forall_congr' fun x => ?_
  rw [mem_jumps_mentionAll, mem_labels_mentionAll]

end State

end Teeny
