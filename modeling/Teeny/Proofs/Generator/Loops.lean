import Teeny.Proofs.Generator.Blocks
import Teeny.Proofs.Token.Positions

/-!
# Why a run ends

A program is read in loops: over empty lines, over the statements of the program or of a block, over
the comparisons of a condition, over the terms of an expression and over the factors of a term. A
`Loop` looks at the token at hand to see whether it goes on (`Loop.tests`, `Loop.goesOn`), and it is
left at such a test only, where it does not go on (`Loop.holds_of_step`,
`Loop.tests_of_finished`). So from one test the tokens lead to the next one, unless the run ends
before that (`Loop.exists_passes`), and nothing that is passed on the way is the end of the input
(`Loop.iterates_of_goesOn`).

Since every token is read once, a run reads one token more than a scan of its source, at most
(`Run.reads_feed_le`), and a scan finds no more tokens than the source has bytes, but for the
newline that ends the last line and the end of the input.
-/

namespace Teeny

/-! ## Loops -/

namespace Purpose

/-- Whether an expression is one side of a condition. -/
def isCondition : Purpose → Bool
  | condition .. => true
  | print | assignment => false

end Purpose

namespace Phase

/-- Whether all lines so far have ended, or the program has not begun. -/
def isBetween : Phase → Bool
  | opening | statement | blockBody _ => true
  | _ => false

/-- What the expression is for that is being read. -/
def purpose? : Phase → Option Purpose
  | operand p _ | signed p | operator p => some p
  | _ => none

/-- What the expression is for whose operand has just been read. -/
def purposeBehind? : Phase → Option Purpose
  | operator p => some p
  | _ => none

theorem purposeBehind?_eq_some {phase : Phase} {p : Purpose} :
    phase.purposeBehind? = some p ↔ phase = operator p := by
  cases phase <;> simp [purposeBehind?]

end Phase

/-- A part of the language that repeats. -/
inductive Loop where
  /-- Empty lines. -/
  | lines
  /-- The statements inside the given blocks, innermost first; those of the program inside none. -/
  | statements (level : List Block)
  /-- The sides of a condition. -/
  | comparison
  /-- The terms of an expression. -/
  | expression
  /-- The factors of a term. -/
  | term
  deriving DecidableEq

namespace Loop

/-- Whether the loop is being run. -/
def holds (s : State) : Loop → Bool
  | lines => s.phase.isBetween
  | statements level => level.isSuffixOf s.around
  | comparison => s.phase.purpose?.any Purpose.isCondition
  | expression | term => s.phase.purpose?.isSome

/-- Whether the loop is at its test when the token `t` is at hand. Inner loops are left before outer
ones are tested. -/
def tests (s : State) (t : Token) : Loop → Bool
  | lines => s.phase.isBetween
  | statements level => s.phase.isBetween && t.kind ≠ .newline && s.around = level
  | comparison =>
    s.phase.purposeBehind?.any Purpose.isCondition && !t.kind.isAdditive && !t.kind.isMultiplicative
  | expression => s.phase.purposeBehind?.isSome && !t.kind.isMultiplicative
  | term => s.phase.purposeBehind?.isSome

/-- Whether the loop goes on at a test with the token `t`. The end of the input is not the word that
closes a block, so the statements of a block go on there, and are refused. -/
def goesOn (t : Token) : Loop → Bool
  | lines => t.kind = .newline
  | statements [] => t.kind ≠ .eof
  | statements (b :: _) => t.kind ≠ .keyword b.closing
  | comparison => t.kind.isComparison
  | expression => t.kind.isAdditive
  | term => t.kind.isMultiplicative

variable {bound : Option Nat} {loop : Loop} {s s' : State} {t : Token}

theorem holds_of_tests (h : loop.tests s t = true) : loop.holds s = true := by
  cases loop with
  | lines => exact h
  | statements level =>
    simp only [tests, Bool.and_eq_true, decide_eq_true_eq] at h
    simp [holds, h.2]
  | comparison =>
    simp only [tests, Bool.and_eq_true, Option.any_eq_true] at h
    obtain ⟨⟨⟨p, hp, hcondition⟩, -⟩, -⟩ := h
    simp [holds, Phase.purposeBehind?_eq_some.1 hp, Phase.purpose?, hcondition]
  | expression =>
    simp only [tests, Bool.and_eq_true, Option.isSome_iff_exists] at h
    obtain ⟨⟨p, hp⟩, -⟩ := h
    simp [holds, Phase.purposeBehind?_eq_some.1 hp, Phase.purpose?]
  | term =>
    obtain ⟨p, hp⟩ := Option.isSome_iff_exists.1 h
    simp [holds, Phase.purposeBehind?_eq_some.1 hp, Phase.purpose?]

end Loop

/-! ## What a step does inside a loop -/

namespace State

open Move

variable {bound : Option Nat} {s s' : State} {t : Token} {p : Purpose}

/-- Whether a run that has come to this state ends here: no token is left to act on, or the next one
is refused. -/
def IsStuck (bound : Option Nat) (s : State) (ts : List Token) : Prop :=
  ∀ t ∈ ts.head?, ∃ d, (s.step bound t).progress = .refused d

theorem isStuck_nil : s.IsStuck bound [] := by
  intro t ht
  cases ht

theorem isStuck_cons {ts : List Token} :
    s.IsStuck bound (t :: ts) ↔ ∃ d, (s.step bound t).progress = .refused d := by
  simp [IsStuck]

/-- No step goes on behind the end of the input, so many steps have not met it. -/
theorem kind_ne_eof_of_steps {ts : List Token} {es : List Emission}
    (h : s.steps bound ts = ⟨es, .more s'⟩) : ∀ t ∈ ts, t.kind ≠ .eof := by
  refine steps_invariant (fun ts _ _ => ∀ t ∈ ts, t.kind ≠ .eof) ?_ [] (List.forall_mem_nil _) h
  intro before es t s fs s' hbefore hstep u hu
  rcases List.mem_append.1 hu with hu | hu
  · exact hbefore u hu
  · cases List.mem_singleton.1 hu
    exact fun ht => step_eof ht (congrArg Move.progress hstep)

/-- Behind an empty line another one may follow. -/
theorem isBetween_of_newline (h : s.phase.isBetween = true) (ht : t.kind = .newline)
    (hstep : (s.step bound t).progress = .more s') : s'.phase.isBetween = true := by
  cases hphase : s.phase <;> simp only [hphase, Phase.isBetween, Bool.false_eq_true] at h <;>
    simp only [step, hphase, progress_after] at hstep
  case opening =>
    rw [itemLine, if_pos ht] at hstep
    cases hstep
    rfl
  case statement =>
    rw [itemLine, if_pos ht] at hstep
    cases hstep
    rfl
  case blockBody b =>
    rw [blockBody_newline ht] at hstep
    cases hstep
    rw [hphase]
    rfl

/-- A block is closed between two lines. -/
theorem isBetween_of_closes {b : Block} (ht : t.kind = .keyword b.closing)
    (hstep : (s.step bound t).progress = .more s') : s.phase.isBetween = true := by
  have hkeeps : ∀ m : Move, m.progress = .more s' → m.Keeps s.blocks t → False := by
    intro m hm hkeeps
    obtain ⟨hinner, -⟩ := hkeeps s' hm
    simp [Kind.isInner, ht] at hinner
  cases hphase : s.phase <;> simp only [step, hphase, progress_after] at hstep
  case opening => rfl
  case statement => rfl
  case blockBody b' => rfl
  case print newline => exact (hkeeps _ hstep keeps_print).elim
  case condition b' => exact (hkeeps _ hstep keeps_operand).elim
  case name use => exact (hkeeps _ hstep keeps_name).elim
  case named use x position => exact (hkeeps _ hstep keeps_named).elim
  case operand p afterSign => exact (hkeeps _ hstep keeps_operand).elim
  case signed p => exact (hkeeps _ hstep keeps_primary).elim
  case blockEnd => exact (hkeeps _ hstep keeps_lineEnd).elim
  case lineEnd => exact (hkeeps _ hstep keeps_lineEnd).elim
  case blockLine b' => simp [expect, ht, refuse] at hstep
  case operator p =>
    have hwords : b.closing ≠ .THEN ∧ b.closing ≠ .REPEAT := by cases b <;> decide
    cases p with
    | print => simp [operator, ht, Kind.isAdditive, Kind.isMultiplicative, expressionEnd, lineEnd,
        expect, refuse] at hstep
    | assignment => simp [operator, ht, Kind.isAdditive, Kind.isMultiplicative, expressionEnd,
        lineEnd, expect, refuse] at hstep
    | condition b' compared =>
      cases b' <;> cases compared <;> simp [operator, ht, Kind.isAdditive, Kind.isMultiplicative,
        expressionEnd, Kind.isComparison, expect, refuse, Block.opening, hwords] at hstep

theorem purpose?_of_primary (h : (s.primary p t).progress = .more s') :
    s'.phase.purpose? = some p := by
  unfold primary at h
  split at h
  next =>
    cases h
    rfl
  next =>
    split at h
    next =>
      cases h
      rfl
    next => cases h
  next => cases h

theorem purpose?_of_operand {afterSign : Bool} (h : (s.operand p afterSign t).progress = .more s') :
    s'.phase.purpose? = some p := by
  unfold operand at h
  split at h
  next =>
    cases h
    rfl
  next => exact purpose?_of_primary h

/-- An expression goes on until no operator stands behind an operand. -/
theorem purpose?_of_step (h : s.phase.purpose? = some p)
    (hstep : (s.step bound t).progress = .more s') :
    s'.phase.purpose? = some p ∨
      s.phase = .operator p ∧ t.kind.isAdditive = false ∧ t.kind.isMultiplicative = false := by
  cases hphase : s.phase <;>
    simp only [hphase, Phase.purpose?, reduceCtorEq, Option.some.injEq] at h <;>
    subst h <;> simp only [step, hphase] at hstep
  case operand => exact Or.inl (purpose?_of_operand hstep)
  case signed => exact Or.inl (purpose?_of_primary hstep)
  case operator =>
    unfold operator at hstep
    split at hstep
    next =>
      cases hstep
      exact Or.inl rfl
    next hadditive =>
      split at hstep
      next =>
        cases hstep
        exact Or.inl rfl
      next hmultiplicative =>
        exact Or.inr ⟨rfl, Bool.eq_false_iff.2 hadditive, Bool.eq_false_iff.2 hmultiplicative⟩

/-- Behind a comparison stands another side of the condition. -/
theorem isCondition_of_comparison (hphase : s.phase = .operator p) (hp : p.isCondition = true)
    (ht : t.kind.isComparison = true) (hstep : (s.step bound t).progress = .more s') :
    s'.phase.purpose?.any Purpose.isCondition = true := by
  cases p with
  | print => cases hp
  | assignment => cases hp
  | condition b compared =>
    simp only [step, hphase, operator] at hstep
    split at hstep
    next =>
      cases hstep
      rfl
    next =>
      split at hstep
      next =>
        cases hstep
        rfl
      next =>
        rw [expressionEnd, if_pos ht] at hstep
        cases hstep
        rfl

end State

namespace Loop

variable {bound : Option Nat} {loop : Loop} {s s' : State} {t : Token}

/-- The statements inside some blocks go on until a test finds the word that closes the innermost of
them. -/
theorem holds_statements {level : List Block} (h : (statements level).holds s = true)
    (hon : (statements level).tests s t = true → (statements level).goesOn t = true)
    (hstep : (s.step bound t).progress = .more s') : (statements level).holds s' = true := by
  rw [holds, List.isSuffixOf_iff_suffix] at h ⊢
  cases State.shift_of_step hstep with
  | opens b hkind hphase hstate =>
    subst hstate
    have haround : s.around = s.blocks := by rw [State.around, hphase]
    rw [haround] at h
    exact h.trans (List.suffix_cons b s.blocks)
  | line b hkind hphase hstate =>
    subst hstate
    have haround : s.around = b :: s.blocks := by
      rcases hphase with hphase | hphase <;> rw [State.around, hphase]
    rw [haround] at h
    exact h
  | closes b hkind hblocks hphase =>
    have haround : s'.around = s'.blocks := by rw [State.around, hphase]
    rw [hblocks] at h
    rw [haround]
    rcases List.suffix_cons_iff.1 h with rfl | h
    · have htests : (statements (b :: s'.blocks)).tests s t = true := by
        simp [tests, State.isBetween_of_closes hkind hstep, hkind, hblocks]
      simpa [goesOn, hkind] using hon htests
    · exact h
  | stays hkind hblocks hphase hbody hline =>
    rw [State.around_of_not_heading hphase, hblocks]
    exact h

/-- A loop is left only at a test where it does not go on. -/
theorem holds_of_step (h : loop.holds s = true)
    (hon : loop.tests s t = true → loop.goesOn t = true)
    (hstep : (s.step bound t).progress = .more s') : loop.holds s' = true := by
  cases loop with
  | lines => exact State.isBetween_of_newline h (of_decide_eq_true (hon h)) hstep
  | statements level => exact holds_statements h hon hstep
  | comparison =>
    obtain ⟨p, hp, hcondition⟩ := (Option.any_eq_true _ _).1 h
    rcases State.purpose?_of_step hp hstep with hp' | ⟨hphase, hadditive, hmultiplicative⟩
    · simp [holds, hp', hcondition]
    · have htests : comparison.tests s t = true := by
        simp [tests, hphase, Phase.purposeBehind?, hcondition, hadditive, hmultiplicative]
      exact State.isCondition_of_comparison hphase hcondition (hon htests) hstep
  | expression =>
    obtain ⟨p, hp⟩ := Option.isSome_iff_exists.1 h
    rcases State.purpose?_of_step hp hstep with hp' | ⟨hphase, hadditive, hmultiplicative⟩
    · simp [holds, hp']
    · have htests : expression.tests s t = true := by
        simp [tests, hphase, Phase.purposeBehind?, hmultiplicative]
      exact absurd (hon htests) (by simp [goesOn, hadditive])
  | term =>
    obtain ⟨p, hp⟩ := Option.isSome_iff_exists.1 h
    rcases State.purpose?_of_step hp hstep with hp' | ⟨hphase, hadditive, hmultiplicative⟩
    · simp [holds, hp']
    · have htests : term.tests s t = true := by simp [tests, hphase, Phase.purposeBehind?]
      exact absurd (hon htests) (by simp [goesOn, hmultiplicative])

/-- A program that is finished has left all its loops at a test. -/
theorem tests_of_finished {es : List Emission} (h : loop.holds s = true)
    (hstep : s.step bound t = ⟨es, .finished s'⟩) :
    loop.tests s t = true ∧ loop.goesOn t = false := by
  obtain ⟨ht, hblocks, hphase⟩ := State.step_finished hstep
  have haround : s.around = [] := by
    rcases hphase with hphase | hphase <;> rw [State.around, hphase, hblocks]
  have hbetween : s.phase.isBetween = true := by
    rcases hphase with hphase | hphase <;> rw [hphase] <;> rfl
  have hpurpose : s.phase.purpose? = none := by
    rcases hphase with hphase | hphase <;> rw [hphase] <;> rfl
  cases loop with
  | lines => exact ⟨h, by simp [goesOn, ht]⟩
  | statements level =>
    rw [holds, haround, List.isSuffixOf_iff_suffix, List.suffix_nil] at h
    subst h
    exact ⟨by simp [tests, hbetween, ht, haround], by simp [goesOn, ht]⟩
  | comparison => simp [holds, hpurpose] at h
  | expression => simp [holds, hpurpose] at h
  | term => simp [holds, hpurpose] at h

/-! ## From one test to the next -/

/-- The loop is run over some tokens, from one state to another, without a test on the way. -/
inductive Passes (bound : Option Nat) (loop : Loop) : State → List Token → State → Prop where
  | nil {s : State} (h : loop.holds s = true) : Passes bound loop s [] s
  | cons {s s' s'' : State} {t : Token} {ts : List Token} {es : List Emission}
    (h : loop.holds s = true) (htests : loop.tests s t = false)
    (hstep : s.step bound t = ⟨es, .more s'⟩) (hrest : Passes bound loop s' ts s'') :
    Passes bound loop s (t :: ts) s''

theorem Passes.exists_steps {ts : List Token} (h : Passes bound loop s ts s') :
    ∃ es, s.steps bound ts = ⟨es, .more s'⟩ := by
  induction h with
  | nil => exact ⟨[], rfl⟩
  | cons _ _ hstep _ ih =>
    obtain ⟨es, hes⟩ := ih
    rw [State.steps_cons, hstep, Move.andThen_more, hes]
    exact ⟨_, rfl⟩

/-- A loop that is run comes to its next test, or the run ends before that. -/
theorem exists_passes (bound : Option Nat) (h : loop.holds s = true) (ts : List Token) :
    ∃ mid rest s', ts = mid ++ rest ∧ Passes bound loop s mid s' ∧
      ((∃ u ∈ rest.head?, loop.tests s' u = true) ∨ s'.IsStuck bound rest) := by
  induction ts generalizing s with
  | nil => exact ⟨[], [], s, rfl, .nil h, Or.inr State.isStuck_nil⟩
  | cons t ts ih =>
    cases htests : loop.tests s t with
    | true => exact ⟨[], t :: ts, s, rfl, .nil h, Or.inl ⟨t, rfl, htests⟩⟩
    | false =>
      cases hm : s.step bound t with
      | mk es progress =>
        cases progress with
        | finished s' =>
          have htests' := (tests_of_finished h hm).1
          rw [htests] at htests'
          cases htests'
        | refused d =>
          exact ⟨[], t :: ts, s, rfl, .nil h, Or.inr (State.isStuck_cons.2 ⟨d, by rw [hm]⟩)⟩
        | more s₁ =>
          have hinside : loop.holds s₁ = true :=
            holds_of_step h (by simp [htests]) (congrArg Move.progress hm)
          obtain ⟨mid, rest, s', rfl, hpasses, hend⟩ := ih hinside
          exact ⟨t :: mid, rest, s', rfl, .cons h htests hm hpasses, hend⟩

/-- An iteration that starts at the token `t`, with other tokens behind it: the token is taken, and
then those up to the next test, or up to where the run ends. None of them is the end of the
input. -/
def Iterates (bound : Option Nat) (loop : Loop) (s : State) (t : Token) (behind : List Token) :
    Prop :=
  ∃ mid rest es s₁ s', behind = mid ++ rest ∧ s.steps bound (t :: mid) = ⟨es, .more s'⟩ ∧
    (∀ u ∈ t :: mid, u.kind ≠ .eof) ∧ (s.step bound t).progress = .more s₁ ∧
    Passes bound loop s₁ mid s' ∧
    ((∃ u ∈ rest.head?, loop.tests s' u = true) ∨ s'.IsStuck bound rest)

/-- Where a loop goes on, the run ends at once or there is an iteration. -/
theorem iterates_of_goesOn (bound : Option Nat) (htests : loop.tests s t = true)
    (hon : loop.goesOn t = true) (behind : List Token) :
    s.IsStuck bound (t :: behind) ∨ loop.Iterates bound s t behind := by
  have hinside := holds_of_tests htests
  cases hm : s.step bound t with
  | mk es progress =>
    cases progress with
    | finished s' =>
      have hoff := (tests_of_finished hinside hm).2
      rw [hon] at hoff
      cases hoff
    | refused d => exact Or.inl (State.isStuck_cons.2 ⟨d, by rw [hm]⟩)
    | more s₁ =>
      have hp := congrArg Move.progress hm
      obtain ⟨mid, rest, s', hbehind, hpasses, hend⟩ :=
        exists_passes bound (holds_of_step hinside (fun _ => hon) hp) behind
      obtain ⟨fs, hsteps⟩ := hpasses.exists_steps
      have hall : s.steps bound (t :: mid) = ⟨es ++ fs, .more s'⟩ := by
        rw [State.steps_cons, hm, Move.andThen_more, hsteps, Move.after_mk]
      exact Or.inr ⟨mid, rest, es ++ fs, s₁, s', hbehind, hall, State.kind_ne_eof_of_steps hall, hp,
        hpasses, hend⟩

end Loop

/-! ## How much is read -/

namespace Cursor

/-- A scan finds no more tokens than there are glyphs, but for the end of the input. -/
theorem length_tokens_scan_le (c : Cursor) : c.scan.tokens.length ≤ c.rest.length + 1 := by
  fun_induction scan c with
  | case1 c f hnext => exact Nat.zero_le _
  | case2 c t d hnext ht => exact Nat.le_add_left 1 _
  | case3 c t d hnext ht hshorter later ih =>
    show d.scan.tokens.length + 1 ≤ c.rest.length + 1
    omega

end Cursor

namespace Run

variable {bound : Option Nat} {file source : Bytes}

/-- From a token on, each token is read once more at most, and exactly once more if the program is
finished. -/
theorem reads_feed_le {c d : Cursor} {t : Token} (s : State) (h : c.next = .ok (t, d)) :
    (feed bound s t d).reads ≤ c.scan.tokens.length ∧
      ((∀ f, (feed bound s t d).failure ≠ some (.single f)) →
        (feed bound s t d).reads = c.scan.tokens.length) := by
  have hpos : 1 ≤ c.scan.tokens.length := by
    rw [Cursor.scan_of_ok h]
    split <;> simp
  fun_induction feed bound s t d generalizing c with
  | case1 s t d f hnext => exact ⟨hpos, fun hne => absurd rfl (hne f)⟩
  | case2 s t d ahead d' hnext f hp => exact ⟨hpos, fun hne => absurd rfl (hne f)⟩
  | case3 s t d ahead d' hnext s' hp =>
    have hstep : s.step bound t = ⟨(s.step bound t).emissions, .finished s'⟩ := by rw [← hp]
    refine ⟨hpos, fun _ => ?_⟩
    rw [Cursor.scan_of_ok h, if_pos (State.step_finished hstep).1]
    rfl
  | case4 s t d ahead d' hnext s' hp _ later =>
    rename_i ih
    have ht : t.kind ≠ .eof := fun ht => State.step_eof ht hp
    have hpos' : 1 ≤ d.scan.tokens.length := by
      rw [Cursor.scan_of_ok hnext]
      split <;> simp
    obtain ⟨hle, heq⟩ := ih hnext hpos'
    have hlength : c.scan.tokens.length = d.scan.tokens.length + 1 := by
      rw [Cursor.scan_of_ok h, if_neg ht]
      rfl
    rw [hlength]
    exact ⟨Nat.succ_le_succ hle, fun hne => congrArg Nat.succ (heq hne)⟩

/-- A run reads one token more than a scan finds, at most, and so it does if the program is
finished. -/
theorem reads_ofSource_le (bound : Option Nat) (file source : Bytes) :
    (ofSource bound file source).reads ≤ (scan file source).tokens.length + 1 ∧
      ((∀ f, (ofSource bound file source).failure ≠ some (.single f)) →
        (ofSource bound file source).reads = (scan file source).tokens.length + 1) := by
  unfold ofSource scan
  split
  next f hnext => exact ⟨Nat.le_add_left 1 _, fun hne => absurd rfl (hne f)⟩
  next t c hnext =>
    obtain ⟨hle, heq⟩ := @reads_feed_le bound _ _ _ .start hnext
    exact ⟨Nat.succ_le_succ hle, fun hne => congrArg Nat.succ (heq hne)⟩

/-- A run that is stuck ends with one diagnostic. -/
theorem exists_single_of_isStuck {front rest : List Token} {es : List Emission} {s : State}
    (hacted : (scan file source).acted = front ++ rest)
    (hsteps : State.start.steps bound front = ⟨es, .more s⟩) (hstuck : s.IsStuck bound rest) :
    ∃ d, (ofSource bound file source).failure = some (.single d) := by
  rcases failure_cases bound file source with ⟨f, -, hf⟩ | ⟨s', hfault, hp, -⟩ |
    ⟨_, _, _, _, _, d, -, -, -, hd⟩
  · exact ⟨f, hf⟩
  · rw [← Scan.acted_of_fault_none hfault, hacted, State.steps_append, hsteps, Move.andThen_more,
      Move.progress_after] at hp
    cases rest with
    | nil => cases hp
    | cons t rest =>
      obtain ⟨d, hd⟩ := State.isStuck_cons.1 hstuck
      have hm : s.step bound t = ⟨(s.step bound t).emissions, .refused d⟩ := by rw [← hd]
      rw [State.steps_cons, hm] at hp
      cases hp
  · exact ⟨d, hd⟩

/-- Reading a source always ends. A scan finds at most two tokens more than the source has bytes. A
run reads at most one token more than the scan finds, and exactly one more if the program is
accepted or lacks nothing but labels. In every state that a run comes to, no token acted on was the
end of the input, and if that is at hand now the run does not go on behind it. Wherever a loop goes
on, it takes at least one token on the way to its next test, and never the end of the input, unless
the run ends before that; then it ends with one diagnostic. -/
theorem translation_ends (bound : Option Nat) (file source : Bytes) :
    let tokens := (scan file source).tokens
    let run := ofSource bound file source
    tokens.length ≤ source.length + 2 ∧ run.reads ≤ tokens.length + 1 ∧
      (run.failure = none ∨ (∃ ds, run.failure = some (.list ds)) →
        run.reads = tokens.length + 1) ∧
      ∀ before rest es s, (scan file source).acted = before ++ rest →
        State.start.steps bound before = ⟨es, .more s⟩ →
        (∀ u ∈ before, u.kind ≠ .eof) ∧
        (s.IsStuck bound rest → ∃ d, run.failure = some (.single d)) ∧
        ∀ t behind, rest = t :: behind →
          (t.kind = .eof → ∀ s', (s.step bound t).progress ≠ .more s') ∧
          ∀ loop : Loop, loop.tests s t = true → loop.goesOn t = true →
            s.IsStuck bound rest ∨ loop.Iterates bound s t behind := by
  intro tokens run
  obtain ⟨hle, heq⟩ := reads_ofSource_le bound file source
  refine ⟨?_, hle, fun hended => heq fun f hf => ?_, ?_⟩
  · have hscan := Cursor.length_tokens_scan_le (Cursor.ofSource file source)
    have hdecode := Glyph.length_decodeFrom_le 0 source
    rw [Cursor.rest_ofSource, List.length_append] at hscan
    exact Nat.le_trans hscan (Nat.add_le_add_right hdecode 2)
  · rcases hended with hnone | ⟨ds, hds⟩
    · exact absurd (hnone.symm.trans hf) (by simp)
    · exact absurd (hds.symm.trans hf) (by simp)
  · intro before rest es s hacted hsteps
    refine ⟨State.kind_ne_eof_of_steps hsteps, exists_single_of_isStuck hacted hsteps, ?_⟩
    rintro t behind rfl
    exact ⟨fun ht _ => State.step_eof ht, fun loop htests hon =>
      Loop.iterates_of_goesOn bound htests hon behind⟩

/-- A program that lacks a label is read to its end and one token further. Its loop has a statement,
and comes to its next test behind it. -/
theorem translation_ends_of_missing_label :
    let source := bytes "WHILE 1 < 2 REPEAT\nGOTO a\nENDWHILE"
    let loop := Loop.statements [.loop]
    (scan [] source).tokens.length = 12 ∧ (ofSource none [] source).reads = 13 ∧
      ∃ before t behind es s, (scan [] source).acted = before ++ t :: behind ∧
        State.start.steps none before = ⟨es, .more s⟩ ∧ t.kind = .keyword .GOTO ∧
        loop.tests s t = true ∧ loop.goesOn t = true ∧ loop.Iterates none s t behind := by
  intro source loop
  let before := (scan [] source).acted.take 6
  let t : Token := ⟨⟨.keyword .GOTO, bytes "GOTO"⟩, ⟨[], 2, 1⟩⟩
  let behind := (scan [] source).acted.drop 7
  let s : State := ⟨.blockBody .loop, [], [], [], []⟩
  have hlength : (scan [] source).tokens.length = 12 := by decide +kernel
  have hfailure : (ofSource none [] source).failure =
      some (.list [⟨⟨[], 2, 6⟩, .missingLabel (bytes "a")⟩]) := by decide +kernel
  have hacted : (scan [] source).acted = before ++ t :: behind := by decide +kernel
  have hsteps : State.start.steps none before =
      ⟨(State.start.steps none before).emissions, .more s⟩ := by decide +kernel
  obtain ⟨-, -, hreads, hstates⟩ := translation_ends none [] source
  obtain ⟨-, -, hnext⟩ := hstates before (t :: behind) _ s hacted hsteps
  refine ⟨hlength, (hreads (Or.inr ⟨_, hfailure⟩)).trans (congrArg Nat.succ hlength), before, t,
    behind, _, s, hacted, hsteps, rfl, rfl, rfl, ?_⟩
  rcases (hnext t behind rfl).2 loop rfl rfl with hstuck | hiterates
  · obtain ⟨d, hd⟩ := State.isStuck_cons.1 hstuck
    cases hd
  · exact hiterates

end Run

end Teeny
