import Teeny.Compile
import Teeny.Proofs.Token.Form

/-!
# Runs as steps over the tokens of a scan

`Run.feed` reads tokens as it goes, one ahead of the one it acts on. Here the reading is taken out:
`State.steps` acts on a list of tokens, and a run on a source is that function on the tokens the
scan of the source finds (`ofSource_eq_steps`). The look-ahead is visible in
one place only: where a fault stops the scan, the last token before it is read and never acted on
(`Scan.acted`).

All that is said about runs elsewhere is said about `State.steps`, whose law is composition
(`steps_append`). How a step can end is said once, in `step_cases`.
-/

namespace Teeny

/-- Whether `n` blocks may be open at once. -/
def Depth.allows (bound : Option Nat) (n : Nat) : Bool :=
  match bound with
  | none => true
  | some m => n ≤ m

theorem Depth.allows_some {m n : Nat} : allows (some m) n = true ↔ n ≤ m := decide_eq_true_iff

namespace Move

/-- Goes on with `next` where the move goes on, and leaves it as it is where it ends. -/
def andThen (m : Move) (next : State → Move) : Move :=
  match m.progress with
  | .more s => after m.emissions (next s)
  | .finished _ | .refused _ => m

@[simp] theorem andThen_more (es : List Emission) (s : State) (next : State → Move) :
    andThen ⟨es, .more s⟩ next = after es (next s) := rfl

@[simp] theorem andThen_finished (es : List Emission) (s : State) (next : State → Move) :
    andThen ⟨es, .finished s⟩ next = ⟨es, .finished s⟩ := rfl

@[simp] theorem andThen_refused (es : List Emission) (d : Diagnostic) (next : State → Move) :
    andThen ⟨es, .refused d⟩ next = ⟨es, .refused d⟩ := rfl

@[simp] theorem after_mk (es fs : List Emission) (p : Progress) :
    after es ⟨fs, p⟩ = ⟨es ++ fs, p⟩ := rfl

@[simp] theorem after_after (es fs : List Emission) (m : Move) :
    after es (after fs m) = after (es ++ fs) m := by
  simp [after]

@[simp] theorem progress_after (es : List Emission) (m : Move) :
    (after es m).progress = m.progress := rfl

theorem after_andThen (es : List Emission) (m : Move) (next : State → Move) :
    (after es m).andThen next = after es (m.andThen next) := by
  obtain ⟨fs, p⟩ := m
  cases p <;> simp

theorem andThen_assoc (m : Move) (f g : State → Move) :
    (m.andThen f).andThen g = m.andThen fun s => (f s).andThen g := by
  obtain ⟨es, p⟩ := m
  cases p with
  | more s => exact after_andThen es (f s) g
  | finished s => rfl
  | refused d => rfl

theorem andThen_proceed (m : Move) : m.andThen proceed = m := by
  obtain ⟨es, p⟩ := m
  cases p <;> simp [proceed]

/-- What comes behind adds to the code. -/
theorem exists_emissions_andThen (m : Move) (f : State → Move) :
    ∃ later, (m.andThen f).emissions = m.emissions ++ later := by
  obtain ⟨es, p⟩ := m
  cases p with
  | more s => exact ⟨(f s).emissions, rfl⟩
  | finished s => exact ⟨[], (List.append_nil es).symm⟩
  | refused d => exact ⟨[], (List.append_nil es).symm⟩

end Move

namespace State

/-! ## Changes of a state -/

@[simp] theorem phase_enter (s : State) (p : Phase) : (s.enter p).phase = p := rfl

@[simp] theorem enter_enter (s : State) (p q : Phase) : (s.enter p).enter q = s.enter q := rfl

theorem enter_of_phase {s : State} {p : Phase} (h : s.phase = p) : s.enter p = s := by
  subst h
  rfl

@[simp] theorem phase_assign (s : State) (x : Bytes) : (s.assign x).phase = s.phase := by
  unfold assign
  split <;> rfl

@[simp] theorem blocks_assign (s : State) (x : Bytes) : (s.assign x).blocks = s.blocks := by
  unfold assign
  split <;> rfl

theorem assign_enter (s : State) (phase : Phase) (x : Bytes) :
    (s.enter phase).assign x = (s.assign x).enter phase := by
  by_cases h : x ∈ s.assigned <;> simp only [assign, enter, h, if_true, if_false]

/-! ## Many steps -/

variable {bound : Option Nat}

/-- Acts on tokens in order, until one is refused or the program is finished. -/
def steps (bound : Option Nat) : State → List Token → Move
  | s, [] => .proceed s
  | s, t :: ts => (s.step bound t).andThen fun s' => s'.steps bound ts

theorem steps_cons (s : State) (t : Token) (ts : List Token) :
    s.steps bound (t :: ts) = (s.step bound t).andThen fun s' => s'.steps bound ts := rfl

@[simp] theorem steps_singleton (s : State) (t : Token) :
    s.steps bound [t] = s.step bound t :=
  Move.andThen_proceed _

/-- Acting on two lists one after the other is acting on both together. -/
theorem steps_append (s : State) (ts us : List Token) :
    s.steps bound (ts ++ us) = (s.steps bound ts).andThen fun s' => s'.steps bound us := by
  induction ts generalizing s with
  | nil => rfl
  | cons t ts ih =>
    have hnext : (fun s' : State => s'.steps bound (ts ++ us)) =
        fun s' => (s'.steps bound ts).andThen fun s'' => s''.steps bound us := funext ih
    rw [List.cons_append, steps_cons, hnext, steps_cons, Move.andThen_assoc]

/-- What each step that goes on carries along with its token and its code, steps carry along with
theirs. -/
theorem steps_invariant (holds : List Token → List Emission → State → Prop)
    (hstep : ∀ before es t s fs s', holds before es s → s.step bound t = ⟨fs, .more s'⟩ →
      holds (before ++ [t]) (es ++ fs) s')
    {before ts : List Token} (es : List Emission) {fs : List Emission} {s s' : State}
    (h : holds before es s) (hsteps : s.steps bound ts = ⟨fs, .more s'⟩) :
    holds (before ++ ts) (es ++ fs) s' := by
  induction ts generalizing before es fs s with
  | nil =>
    cases hsteps
    rwa [List.append_nil, List.append_nil]
  | cons t ts ih =>
    rw [steps_cons] at hsteps
    cases hm : s.step bound t with
    | mk gs p =>
      rw [hm] at hsteps
      cases p with
      | more s₁ =>
        cases hrest : s₁.steps bound ts with
        | mk hs q =>
          rw [Move.andThen_more, hrest, Move.after_mk] at hsteps
          cases hsteps
          have hlater := ih _ (hstep _ _ _ _ _ _ h hm) hrest
          rwa [List.append_assoc, List.append_assoc] at hlater
      | finished s₁ => cases hsteps
      | refused d => cases hsteps

/-! ## Tokens of an expression -/

theorem exists_operator_of_isAdditive {k : Kind} (h : k.isAdditive = true) :
    ∃ o, k = .operator o := by
  rcases Bool.or_eq_true_iff.1 h with h | h <;> exact ⟨_, of_decide_eq_true h⟩

theorem exists_operator_of_isMultiplicative {k : Kind} (h : k.isMultiplicative = true) :
    ∃ o, k = .operator o := by
  rcases Bool.or_eq_true_iff.1 h with h | h <;> exact ⟨_, of_decide_eq_true h⟩

theorem exists_operator_of_isComparison {k : Kind} (h : k.isComparison = true) :
    ∃ o, k = .operator o := by
  cases k with
  | operator o => exact ⟨o, rfl⟩
  | _ => cases h

/-! ## The first token inside a block -/

/-- The state inside a block. -/
def openBlock (s : State) (block : Block) : State :=
  { s with phase := .statement, blocks := block :: s.blocks }

theorem blockBody_newline {block : Block} {t : Token} {s : State} (ht : t.kind = .newline) :
    s.blockBody bound block t = .proceed s := by
  rw [blockBody, if_pos ht]

theorem blockBody_of_allows {block : Block} {t : Token} {s : State} (ht : t.kind ≠ .newline)
    (h : Depth.allows bound (s.blocks.length + 1) = true) :
    s.blockBody bound block t = .after [.line (bytes ") \x7b")] ((s.openBlock block).item t) := by
  rw [blockBody, if_neg ht]
  cases bound with
  | none => rfl
  | some n =>
    have hn : s.blocks.length + 1 ≤ n := Depth.allows_some.1 h
    exact congrArg (Move.after _) (if_neg (by simpa using Nat.not_lt.2 hn))

theorem blockBody_of_not_allows (block : Block) {t : Token} {s : State} (ht : t.kind ≠ .newline)
    (h : Depth.allows bound (s.blocks.length + 1) = false) :
    ∃ n, bound = some n ∧
      s.blockBody bound block t =
        .after [.line (bytes ") \x7b")] (.refuse t (.nestedTooDeep n)) := by
  cases bound with
  | none => cases h
  | some n =>
    have hn : ¬ s.blocks.length + 1 ≤ n := of_decide_eq_false h
    refine ⟨n, rfl, ?_⟩
    rw [blockBody, if_neg ht]
    exact congrArg (Move.after _) (if_pos (by simpa using hn))

end State

/-! ## How a step can end -/

/-- Whether a move stays inside the program: it goes on, or it refuses what stands at a position
because of what the program says there, and it never finishes. -/
def Move.Stays (position : Position) (m : Move) : Prop :=
  match m.progress with
  | .more _ => True
  | .finished _ => False
  | .refused d =>
    d.position = position ∧ (d.fault.kind = .syntactic ∨ d.fault.kind = .semantic)

namespace Move

variable {position : Position} {t : Token}

@[simp] theorem stays_more (es : List Emission) (s : State) : Stays position ⟨es, .more s⟩ :=
  trivial

@[simp] theorem stays_proceed (s : State) : Stays position (proceed s) := trivial

@[simp] theorem stays_refuse (fault : Fault) :
    Stays t.position (refuse t fault) ↔ fault.kind = .syntactic ∨ fault.kind = .semantic :=
  and_iff_right rfl

@[simp] theorem stays_after {es : List Emission} {m : Move} :
    Stays position (after es m) ↔ Stays position m := Iff.rfl

@[simp] theorem stays_expect (k : Kind) (s : State) : Stays t.position (expect k t s) := by
  unfold expect
  split <;> simp [Fault.kind]

theorem Stays.ne_finished {m : Move} (h : m.Stays position) (s : State) :
    m.progress ≠ .finished s := by
  intro hp
  rw [Stays, hp] at h
  exact h

theorem Stays.refused {m : Move} (h : m.Stays position) {d : Diagnostic}
    (hp : m.progress = .refused d) :
    d.position = position ∧ (d.fault.kind = .syntactic ∨ d.fault.kind = .semantic) := by
  rw [Stays, hp] at h
  exact h

end Move

namespace State

variable {bound : Option Nat} {t : Token} {s : State}

theorem stays_primary {p : Purpose} : (s.primary p t).Stays t.position := by
  unfold primary
  split
  next => simp
  next => split <;> simp [Fault.kind]
  next => simp [Fault.kind]

theorem stays_operand {p : Purpose} {afterSign : Bool} :
    (s.operand p afterSign t).Stays t.position := by
  unfold operand
  split
  next => simp
  next => exact stays_primary

theorem stays_expressionEnd {p : Purpose} : (s.expressionEnd t p).Stays t.position := by
  cases p with
  | print => exact Move.stays_expect _ _
  | assignment => exact Move.stays_expect _ _
  | condition block compared =>
    simp only [expressionEnd]
    split
    next => simp
    next => split <;> simp [Fault.kind]

theorem stays_operator {p : Purpose} : (s.operator p t).Stays t.position := by
  unfold operator
  split
  next => simp
  next =>
    split
    next => simp
    next => exact stays_expressionEnd

theorem stays_print {newline : Bool} : (s.print newline t).Stays t.position := by
  unfold print
  dsimp only
  split
  next => simp
  next => exact stays_operand

theorem stays_name {use : Naming} : (s.name use t).Stays t.position := by
  unfold name
  split
  next => split <;> simp [Fault.kind]
  next => simp [Fault.kind]

theorem stays_named {name : Bytes} {position : Position} {use : Naming} :
    (s.named name position t use).Stays t.position := by
  cases use <;> exact Move.stays_expect _ _

theorem stays_statement : (s.statement t).Stays t.position := by
  unfold statement
  split <;> simp [Fault.kind]

/-- Outside all blocks, the end of the input finishes the program; nothing else does. -/
theorem item_cases :
    (t.kind = .eof ∧ s.blocks = [] ∧ s.item t = ⟨epilogue, .finished s⟩) ∨
      (s.item t).Stays t.position := by
  unfold item
  split
  next hblocks =>
    split
    next ht => exact Or.inl ⟨ht, hblocks, rfl⟩
    next => exact Or.inr stays_statement
  next =>
    right
    split
    next => simp
    next =>
      split
      next => simp [Fault.kind]
      next => exact stays_statement

theorem itemLine_cases :
    (t.kind = .eof ∧ s.blocks = [] ∧ s.itemLine t = ⟨epilogue, .finished s⟩) ∨
      (s.itemLine t).Stays t.position := by
  unfold itemLine
  split
  next => exact Or.inr (Move.stays_proceed _)
  next => exact item_cases

/-- Inside a block the end of the input is refused. -/
theorem stays_blockBody {b : Block} : (s.blockBody bound b t).Stays t.position := by
  by_cases ht : t.kind = .newline
  · rw [blockBody_newline ht]
    exact Move.stays_proceed _
  · cases h : Depth.allows bound (s.blocks.length + 1) with
    | true =>
      rw [blockBody_of_allows ht h, Move.stays_after]
      rcases @item_cases t (s.openBlock b) with ⟨-, hblocks, -⟩ | hstays
      · cases hblocks
      · exact hstays
    | false =>
      obtain ⟨n, -, he⟩ := blockBody_of_not_allows b ht h
      rw [he, Move.stays_after, Move.stays_refuse]
      exact Or.inl rfl

/-- A step finishes the program at the end of the input, between two statements and outside all
blocks. Any other step stays inside the program, and refuses nothing but its token, for no lexical
reason. -/
theorem step_cases :
    (t.kind = .eof ∧ s.blocks = [] ∧
        (s.phase = .opening ∧ s.step bound t = ⟨preamble ++ epilogue, .finished s⟩ ∨
          s.phase = .statement ∧ s.step bound t = ⟨epilogue, .finished s⟩)) ∨
      (s.step bound t).Stays t.position := by
  cases hphase : s.phase <;> simp only [step, hphase]
  case opening =>
    rcases @itemLine_cases t s with ⟨ht, hblocks, hitem⟩ | hstays
    · exact Or.inl ⟨ht, hblocks, Or.inl ⟨trivial, congrArg (Move.after preamble) hitem⟩⟩
    · exact Or.inr hstays
  case statement =>
    rcases @itemLine_cases t s with ⟨ht, hblocks, hitem⟩ | hstays
    · exact Or.inl ⟨ht, hblocks, Or.inr ⟨trivial, hitem⟩⟩
    · exact Or.inr hstays
  case print => exact Or.inr stays_print
  case condition => exact Or.inr stays_operand
  case name => exact Or.inr stays_name
  case named => exact Or.inr stays_named
  case operand => exact Or.inr stays_operand
  case signed => exact Or.inr stays_primary
  case operator => exact Or.inr stays_operator
  case blockLine => exact Or.inr (Move.stays_expect _ _)
  case blockBody => exact Or.inr stays_blockBody
  case blockEnd => exact Or.inr (Move.stays_expect _ _)
  case lineEnd => exact Or.inr (Move.stays_expect _ _)

theorem step_finished {s' : State} {es : List Emission}
    (h : s.step bound t = ⟨es, .finished s'⟩) :
    t.kind = .eof ∧ s.blocks = [] ∧ (s.phase = .opening ∨ s.phase = .statement) := by
  rcases @step_cases bound t s with ⟨ht, hblocks, hphase⟩ | hstays
  · exact ⟨ht, hblocks, hphase.imp And.left And.left⟩
  · exact absurd (congrArg Move.progress h) (hstays.ne_finished s')

theorem of_step_refused {d : Diagnostic} (h : (s.step bound t).progress = .refused d) :
    d.position = t.position ∧ (d.fault.kind = .syntactic ∨ d.fault.kind = .semantic) := by
  rcases @step_cases bound t s with ⟨-, -, ⟨-, hstep⟩ | ⟨-, hstep⟩⟩ | hstays
  · rw [hstep] at h
    cases h
  · rw [hstep] at h
    cases h
  · exact hstays.refused h

/-! ## How steps can end -/

theorem steps_finished {ts : List Token} {s s' : State}
    (h : (s.steps bound ts).progress = .finished s') : ∃ t ∈ ts, t.kind = .eof := by
  induction ts generalizing s with
  | nil => cases h
  | cons t ts ih =>
    rw [steps_cons] at h
    cases hm : s.step bound t with
    | mk es p =>
      rw [hm] at h
      cases p with
      | more s₁ =>
        obtain ⟨x, hx, hkind⟩ := ih h
        exact ⟨x, List.mem_cons_of_mem t hx, hkind⟩
      | finished s₁ => exact ⟨t, List.mem_cons_self .., (step_finished hm).1⟩
      | refused d => cases h

/-- Tokens with the end of the input behind them never leave the program open. -/
theorem steps_eof_ne_more {ts : List Token} {e : Token} {s s' : State} (he : e.kind = .eof) :
    (s.steps bound (ts ++ [e])).progress ≠ .more s' := by
  rw [steps_append]
  cases s.steps bound ts with
  | mk es p =>
    cases p with
    | more s₁ =>
      rw [Move.andThen_more, Move.progress_after, steps_singleton]
      exact step_eof he
    | finished s₁ => simp
    | refused d => simp

/-- Where tokens are refused, it is one of them, and those before it went through. -/
theorem steps_refused {ts : List Token} {s : State} {d : Diagnostic}
    (h : (s.steps bound ts).progress = .refused d) :
    ∃ before t after es s', ts = before ++ t :: after ∧
      s.steps bound before = ⟨es, .more s'⟩ ∧ (s'.step bound t).progress = .refused d := by
  induction ts generalizing s with
  | nil => cases h
  | cons t ts ih =>
    rw [steps_cons] at h
    cases hm : s.step bound t with
    | mk es p =>
      rw [hm] at h
      cases p with
      | more s₁ =>
        obtain ⟨before, u, after, fs, s', rfl, hsteps, hrefused⟩ := ih h
        refine ⟨t :: before, u, after, es ++ fs, s', rfl, ?_, hrefused⟩
        rw [steps_cons, hm, Move.andThen_more, hsteps]
        rfl
      | finished s₁ => cases h
      | refused d' =>
        cases h
        exact ⟨[], t, ts, [], s, rfl, rfl, by rw [hm]⟩

/-- What is found at the end of a program is a list, even if it holds one thing only. -/
theorem verdict_ne_single (s : State) (d : Diagnostic) : s.verdict ≠ some (.single d) := by
  unfold verdict
  split <;> simp

end State

/-! ## Runs on a source -/

/-- The tokens that a run acts on. The last token before a fault is read, but nothing is done
about it, since the token behind it cannot be read. -/
def Scan.acted (scan : Scan) : List Token :=
  match scan.fault with
  | none => scan.tokens
  | some _ => scan.tokens.dropLast

theorem Scan.acted_of_fault_none {scan : Scan} (h : scan.fault = none) :
    scan.acted = scan.tokens := by
  rw [acted, h]

theorem Scan.mem_of_mem_acted {scan : Scan} {t : Token} (h : t ∈ scan.acted) :
    t ∈ scan.tokens := by
  unfold acted at h
  split at h
  next => exact h
  next => exact List.dropLast_subset _ h

/-- Why a run that ends this way is refused, if it is; `fault` stopped the reading of tokens. -/
def Progress.failure (fault : Option Diagnostic) : Progress → Option Failure
  | .more _ => fault.map .single
  | .finished s => s.verdict
  | .refused d => some (.single d)

namespace Cursor

/-- What is acted on behind a token that is neither the last nor the last before a fault. -/
theorem acted_scan_cons {c d d' : Cursor} {t ahead : Token} (h : c.next = .ok (t, d))
    (hahead : d.next = .ok (ahead, d')) (ht : t.kind ≠ .eof) :
    c.scan.acted = t :: d.scan.acted ∧ c.scan.fault = d.scan.fault := by
  have hne : d.scan.tokens ≠ [] := by
    rw [scan_of_ok hahead]
    split <;> simp
  rw [scan_of_ok h, if_neg ht]
  refine ⟨?_, rfl⟩
  unfold Scan.acted
  cases hfault : d.scan.fault with
  | none => rfl
  | some f => exact List.dropLast_cons_of_ne_nil hne

end Cursor

namespace Run

variable {bound : Option Nat}

/-- Where the step on a token is the last one, nothing behind the token matters. -/
theorem steps_acted_of_stop {c d d' : Cursor} {t ahead : Token} {s : State}
    (h : c.next = .ok (t, d)) (hahead : d.next = .ok (ahead, d'))
    (hstop : ∀ s', (s.step bound t).progress ≠ .more s') :
    s.steps bound c.scan.acted = s.step bound t := by
  by_cases ht : t.kind = .eof
  · rw [Cursor.scan_of_ok h, if_pos ht]
    exact State.steps_singleton s t
  · rw [(Cursor.acted_scan_cons h hahead ht).1, State.steps_cons]
    cases hm : s.step bound t with
    | mk es p =>
      cases p with
      | more s' => exact absurd (congrArg Move.progress hm) (hstop s')
      | finished s' => rfl
      | refused f => rfl

/-- A run from a token on is the steps over what a scan from there finds. -/
theorem feed_eq_steps {c d : Cursor} {t : Token} (s : State) (h : c.next = .ok (t, d)) :
    (feed bound s t d).emissions = (s.steps bound c.scan.acted).emissions ∧
      (feed bound s t d).failure =
        (s.steps bound c.scan.acted).progress.failure c.scan.fault := by
  fun_induction feed bound s t d generalizing c with
  | case1 s t d f hnext =>
    -- the token behind `t` cannot be read, so `t` is not acted on
    have ht : t.kind ≠ .eof := by
      intro ht
      obtain ⟨e, d', hend, -⟩ := Cursor.next_of_rest_nil (Cursor.rest_of_next_eof h ht)
      rw [hend] at hnext
      cases hnext
    rw [Cursor.scan_of_ok h, if_neg ht, Cursor.scan_of_error hnext]
    exact ⟨rfl, rfl⟩
  | case2 s t d ahead d' hnext f hp =>
    rw [steps_acted_of_stop h hnext (by simp [hp]), hp]
    exact ⟨rfl, rfl⟩
  | case3 s t d ahead d' hnext s' hp =>
    rw [steps_acted_of_stop h hnext (by simp [hp]), hp]
    exact ⟨rfl, rfl⟩
  | case4 s t d ahead d' hnext s' hp _ later =>
    rename_i ih
    have ht : t.kind ≠ .eof := fun ht => State.step_eof ht hp
    obtain ⟨hacted, hfault⟩ := Cursor.acted_scan_cons h hnext ht
    obtain ⟨ihes, ihfailure⟩ := ih hnext
    have hstep : s.step bound t = ⟨(s.step bound t).emissions, .more s'⟩ := by rw [← hp]
    rw [hacted, hfault, State.steps_cons, hstep, Move.andThen_more]
    exact ⟨congrArg _ ihes, ihfailure⟩

/-- What a run on a source emits and why it is refused, from the tokens of the source. -/
theorem ofSource_eq_steps (bound : Option Nat) (file source : Bytes) :
    (ofSource bound file source).emissions =
        (State.start.steps bound (scan file source).acted).emissions ∧
      (ofSource bound file source).failure =
        (State.start.steps bound (scan file source).acted).progress.failure
          (scan file source).fault := by
  unfold ofSource scan
  split
  next f hnext =>
    rw [Cursor.scan_of_error hnext]
    exact ⟨rfl, rfl⟩
  next t c hnext => exact feed_eq_steps .start hnext

/-- A run stops at the fault of the scan, or finishes a source without one, or refuses one of the
tokens that it acts on. -/
theorem failure_cases (bound : Option Nat) (file source : Bytes) :
    (∃ f, (scan file source).fault = some f ∧
        (ofSource bound file source).failure = some (.single f)) ∨
      (∃ s, (scan file source).fault = none ∧
        (State.start.steps bound (scan file source).tokens).progress = .finished s ∧
        (ofSource bound file source).failure = s.verdict) ∨
      ∃ before t after es s d, (scan file source).acted = before ++ t :: after ∧
        State.start.steps bound before = ⟨es, .more s⟩ ∧
        (s.step bound t).progress = .refused d ∧
        (ofSource bound file source).failure = some (.single d) := by
  have hfailure := (ofSource_eq_steps bound file source).2
  cases hp : (State.start.steps bound (scan file source).acted).progress with
  | more s =>
    left
    cases hfault : (scan file source).fault with
    | none =>
      obtain ⟨ts, e, htokens, he, -⟩ := Cursor.exists_eof_of_fault_none _ hfault
      rw [Scan.acted_of_fault_none hfault, scan, htokens] at hp
      exact absurd hp (State.steps_eof_ne_more he)
    | some f =>
      rw [hp, hfault] at hfailure
      exact ⟨f, rfl, hfailure⟩
  | finished s =>
    right
    left
    rw [hp] at hfailure
    cases hfault : (scan file source).fault with
    | none =>
      rw [Scan.acted_of_fault_none hfault] at hp
      exact ⟨s, rfl, hp, hfailure⟩
    | some f =>
      -- only the end of the input finishes a program, and no token before a fault is that
      obtain ⟨t, ht, hkind⟩ := State.steps_finished hp
      exact absurd hkind
        (Cursor.kind_ne_eof_of_fault_some _ hfault t (Scan.mem_of_mem_acted ht))
  | refused d =>
    right
    right
    rw [hp] at hfailure
    obtain ⟨before, t, after, es, s, hsplit, hsteps, hrefused⟩ := State.steps_refused hp
    exact ⟨before, t, after, es, s, d, hsplit, hsteps, hrefused, hfailure⟩

/-- The steps of an accepted program end with the program finished. -/
theorem finished_of_failure_none {file source : Bytes}
    (h : (ofSource bound file source).failure = none) :
    (scan file source).fault = none ∧
      ∃ s, (State.start.steps bound (scan file source).tokens).progress = .finished s ∧
        s.verdict = none := by
  rcases failure_cases bound file source with ⟨f, -, hf⟩ | ⟨s, hfault, hp, hs⟩ |
    ⟨before, t, after, es, s, d, -, -, -, hd⟩
  · rw [hf] at h
    cases h
  · rw [hs] at h
    exact ⟨hfault, s, hp, h⟩
  · rw [hd] at h
    cases h

/-- A program is accepted if its tokens can be read, finish the program, and leave no jump without
a target. -/
theorem failure_eq_none_iff {file source : Bytes} :
    (ofSource bound file source).failure = none ↔
      (scan file source).fault = none ∧
        ∃ s, (State.start.steps bound (scan file source).tokens).progress = .finished s ∧
          s.verdict = none := by
  refine ⟨finished_of_failure_none, ?_⟩
  rintro ⟨hfault, s, hp, hverdict⟩
  rw [(ofSource_eq_steps bound file source).2, Scan.acted_of_fault_none hfault, hp]
  exact hverdict

end Run

end Teeny
