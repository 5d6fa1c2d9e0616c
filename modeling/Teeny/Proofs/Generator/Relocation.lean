import Teeny.Proofs.Generator.Steps

/-!
# Positions do not matter

The generator carries positions along, for its messages, and never looks at them. So moving all
positions by any function `f`, in the tokens and in the state, moves the positions in the result
and changes nothing else (`steps_relocate`). Two token lists with the same lexemes are the same list
after all positions are moved to one place, which is how statements about lexemes are
carried over to tokens (`relocate_const`).
-/

namespace Teeny

variable (f : Position → Position)

/-- A token with its position moved. -/
def Token.relocate (t : Token) : Token := { t with position := f t.position }

/-- A phase with its position moved. -/
def Phase.relocate : Phase → Phase
  | .named use x position => .named use x (f position)
  | phase => phase

/-- A state with all its positions moved. -/
def State.relocate (s : State) : State :=
  { s with
    phase := s.phase.relocate f
    jumps := s.jumps.map fun jump => (jump.1, f jump.2) }

/-- A diagnostic with its position moved. -/
def Diagnostic.relocate (d : Diagnostic) : Diagnostic := { d with position := f d.position }

/-- Progress with all positions moved. -/
def Progress.relocate : Progress → Progress
  | .more s => .more (s.relocate f)
  | .finished s => .finished (s.relocate f)
  | .refused d => .refused (d.relocate f)

/-- A move with all positions moved. -/
def Move.relocate (m : Move) : Move := { m with progress := m.progress.relocate f }

@[simp] theorem Token.toLexeme_relocate (t : Token) : (t.relocate f).toLexeme = t.toLexeme := rfl

@[simp] theorem Token.position_relocate (t : Token) :
    (t.relocate f).position = f t.position := rfl

/-- With all positions moved to one place, a list of tokens is the list of its lexemes there. -/
theorem Token.relocate_const (place : Position) (ts : List Token) :
    ts.map (Token.relocate fun _ => place) =
      (ts.map Token.toLexeme).map fun l => ⟨l, place⟩ := by
  simp [Token.relocate]

namespace Move

@[simp] theorem relocate_after (es : List Emission) (m : Move) :
    (after es m).relocate f = after es (m.relocate f) := rfl

@[simp] theorem relocate_more (es : List Emission) (s : State) :
    relocate f ⟨es, .more s⟩ = ⟨es, .more (s.relocate f)⟩ := rfl

@[simp] theorem relocate_proceed (s : State) :
    (proceed s).relocate f = proceed (s.relocate f) := rfl

@[simp] theorem relocate_refuse (t : Token) (fault : Fault) :
    (refuse t fault).relocate f = refuse (t.relocate f) fault := rfl

@[simp] theorem relocate_expect (k : Kind) (t : Token) (s : State) :
    (expect k t s).relocate f = expect k (t.relocate f) (s.relocate f) := by
  unfold expect
  rw [Token.toLexeme_relocate]
  split <;> rfl

theorem relocate_andThen (m : Move) {next next' : State → Move}
    (h : ∀ s, (next s).relocate f = next' (s.relocate f)) :
    (m.andThen next).relocate f = (m.relocate f).andThen next' := by
  obtain ⟨es, p⟩ := m
  cases p with
  | more s => simp [h]
  | finished s => rfl
  | refused d => rfl

end Move

namespace State

variable {f} {bound : Option Nat}

@[simp] theorem assigned_relocate (s : State) : (s.relocate f).assigned = s.assigned := rfl

@[simp] theorem labels_relocate (s : State) : (s.relocate f).labels = s.labels := rfl

@[simp] theorem blocks_relocate (s : State) : (s.relocate f).blocks = s.blocks := rfl

@[simp] theorem declaration_relocate (s : State) (name : Bytes) :
    (s.relocate f).declaration name = s.declaration name := rfl

@[simp] theorem relocate_enter (s : State) (phase : Phase) :
    (s.enter phase).relocate f = (s.relocate f).enter (phase.relocate f) := rfl

@[simp] theorem relocate_assign (s : State) (name : Bytes) :
    (s.assign name).relocate f = (s.relocate f).assign name := by
  unfold assign
  rw [assigned_relocate]
  split <;> rfl

theorem primary_relocate (s : State) (p : Purpose) (t : Token) :
    (s.relocate f).primary p (t.relocate f) = (s.primary p t).relocate f := by
  unfold primary
  simp only [Token.toLexeme_relocate, assigned_relocate]
  split
  next => rfl
  next => by_cases h : t.text ∈ s.assigned <;> simp [h, Phase.relocate]
  next => rfl

theorem operand_relocate (s : State) (p : Purpose) (afterSign : Bool) (t : Token) :
    (s.relocate f).operand p afterSign (t.relocate f) = (s.operand p afterSign t).relocate f := by
  unfold operand
  rw [Token.toLexeme_relocate]
  split
  next => rfl
  next => exact primary_relocate s p t

theorem lineEnd_relocate (s : State) (t : Token) :
    (s.relocate f).lineEnd (t.relocate f) = (s.lineEnd t).relocate f := by
  simp [lineEnd, Phase.relocate]

theorem expressionEnd_relocate (s : State) (p : Purpose) (t : Token) :
    (s.relocate f).expressionEnd (t.relocate f) p = (s.expressionEnd t p).relocate f := by
  cases p with
  | print => simp [expressionEnd, lineEnd_relocate]
  | assignment => simp [expressionEnd, lineEnd_relocate]
  | condition block compared =>
    by_cases hcomparison : t.kind.isComparison = true
    · simp [expressionEnd, hcomparison, Phase.relocate]
    · cases compared <;> simp [expressionEnd, hcomparison, Phase.relocate]

theorem operator_relocate (s : State) (p : Purpose) (t : Token) :
    (s.relocate f).operator p (t.relocate f) = (s.operator p t).relocate f := by
  unfold operator
  rw [Token.toLexeme_relocate]
  split
  next => rfl
  next =>
    split
    next => rfl
    next => exact expressionEnd_relocate s p t

theorem print_relocate (s : State) (newline : Bool) (t : Token) :
    (s.relocate f).print newline (t.relocate f) = (s.print newline t).relocate f := by
  unfold print
  dsimp only
  rw [Token.toLexeme_relocate]
  split
  next => rfl
  next => rw [operand_relocate, Move.relocate_after]

theorem name_relocate (s : State) (use : Naming) (t : Token) :
    (s.relocate f).name use (t.relocate f) = (s.name use t).relocate f := by
  by_cases hname : t.kind = .name
  · by_cases hlabel : use = .label ∧ t.text ∈ s.labels
    · simp [name, hname, hlabel]
    · simp [name, hname, hlabel, Phase.relocate]
  · simp [name, hname]

theorem named_relocate (s : State) (name : Bytes) (position : Position) (use : Naming)
    (t : Token) :
    (s.relocate f).named name (f position) (t.relocate f) use =
      (s.named name position t use).relocate f := by
  cases use with
  | label => simp only [named, Move.relocate_after, ← lineEnd_relocate, relocate]
  | jump =>
    simp only [named, Move.relocate_after, ← lineEnd_relocate, relocate, List.map_append,
      List.map_cons, List.map_nil]
  | assignment => simp [named, Phase.relocate]
  | input => simp [named, ← lineEnd_relocate]

theorem statement_relocate (s : State) (t : Token) :
    (s.relocate f).statement (t.relocate f) = (s.statement t).relocate f := by
  unfold statement
  rw [Token.toLexeme_relocate]
  split <;> rfl

theorem item_relocate (s : State) (t : Token) :
    (s.relocate f).item (t.relocate f) = (s.item t).relocate f := by
  unfold item
  rw [Token.toLexeme_relocate, blocks_relocate]
  split
  next =>
    split
    next => rfl
    next => exact statement_relocate s t
  next =>
    split
    next => rfl
    next =>
      split
      next => rfl
      next => exact statement_relocate s t

theorem itemLine_relocate (s : State) (t : Token) :
    (s.relocate f).itemLine (t.relocate f) = (s.itemLine t).relocate f := by
  unfold itemLine
  rw [Token.toLexeme_relocate]
  split
  next => rfl
  next => exact item_relocate s t

theorem blockBody_relocate (s : State) (block : Block) (t : Token) :
    (s.relocate f).blockBody bound block (t.relocate f) =
      (s.blockBody bound block t).relocate f := by
  by_cases ht : t.kind = .newline
  · rw [blockBody_newline ht, blockBody_newline (by exact ht), Move.relocate_proceed]
  · cases h : Depth.allows bound (s.blocks.length + 1) with
    | true =>
      rw [blockBody_of_allows ht h, blockBody_of_allows (by exact ht) (by exact h),
        Move.relocate_after, ← item_relocate]
      rfl
    | false =>
      obtain ⟨n, hn, he⟩ := blockBody_of_not_allows block ht h
      obtain ⟨n', hn', he'⟩ := blockBody_of_not_allows block (s := s.relocate f)
        (t := t.relocate f) ht h
      obtain rfl : n = n' := Option.some.inj (hn.symm.trans hn')
      rw [he, he']
      rfl

/-- A step commutes with moving all positions. -/
theorem step_relocate (s : State) (t : Token) :
    (s.relocate f).step bound (t.relocate f) = (s.step bound t).relocate f := by
  cases hphase : s.phase <;>
    simp only [step, show (s.relocate f).phase = s.phase.relocate f from rfl, hphase,
      Phase.relocate]
  case opening => rw [itemLine_relocate, Move.relocate_after]
  case statement => exact itemLine_relocate s t
  case print newline => exact print_relocate s newline t
  case condition block => rw [operand_relocate, Move.relocate_after]
  case name use => exact name_relocate s use t
  case named use x position => exact named_relocate s x position use t
  case operand p afterSign => exact operand_relocate s p afterSign t
  case signed p => exact primary_relocate s p t
  case operator p => exact operator_relocate s p t
  case blockLine block => simp [Phase.relocate]
  case blockBody block => exact blockBody_relocate s block t
  case blockEnd => rw [lineEnd_relocate, Move.relocate_after]
  case lineEnd => exact lineEnd_relocate s t

/-- So do any number of steps. -/
theorem steps_relocate (s : State) (ts : List Token) :
    (s.relocate f).steps bound (ts.map (Token.relocate f)) = (s.steps bound ts).relocate f := by
  induction ts generalizing s with
  | nil => rfl
  | cons t ts ih =>
    rw [List.map_cons, steps_cons, steps_cons, step_relocate]
    exact (Move.relocate_andThen f _ fun s' => (ih s').symm).symm

@[simp] theorem relocate_start : start.relocate f = start := rfl

/-! ## Lexemes at one place -/

/-- Acts on lexemes in order, as tokens that all stand at one place. -/
def follow (bound : Option Nat) (place : Position) (s : State) (ls : List Lexeme) : Move :=
  s.steps bound (ls.map fun l => ⟨l, place⟩)

variable {place : Position}

@[simp] theorem follow_nil (s : State) : s.follow bound place [] = ⟨[], .more s⟩ := rfl

theorem follow_cons (s : State) (l : Lexeme) (ls : List Lexeme) :
    s.follow bound place (l :: ls) =
      (s.step bound ⟨l, place⟩).andThen fun s' => s'.follow bound place ls := rfl

@[simp] theorem follow_singleton (s : State) (l : Lexeme) :
    s.follow bound place [l] = s.step bound ⟨l, place⟩ :=
  steps_singleton s _

theorem follow_append (s : State) (ls ms : List Lexeme) :
    s.follow bound place (ls ++ ms) =
      (s.follow bound place ls).andThen fun s' => s'.follow bound place ms := by
  rw [follow, List.map_append, steps_append]
  rfl

/-- What is done on tokens, up to positions, is what is done on their lexemes. -/
theorem follow_toLexeme (place : Position) (s : State) (ts : List Token) :
    (s.relocate fun _ => place).follow bound place (ts.map Token.toLexeme) =
      (s.steps bound ts).relocate fun _ => place := by
  rw [follow, ← Token.relocate_const, steps_relocate]

/-! ## Reports -/

/-- The jumps without a target are the same ones, wherever they stand. -/
theorem missingLabels_relocate (known : List Bytes) (jumps : List (Bytes × Position)) :
    missingLabels known (jumps.map fun jump => (jump.1, f jump.2)) =
      (missingLabels known jumps).map (Diagnostic.relocate f) := by
  induction jumps generalizing known with
  | nil => rfl
  | cons jump jumps ih =>
    obtain ⟨name, position⟩ := jump
    rw [List.map_cons, missingLabels, missingLabels]
    split
    next => exact ih known
    next =>
      rw [ih, List.map_cons]
      rfl

end State

/-- A failure with all its positions moved. -/
def Failure.relocate (f : Position → Position) : Failure → Failure
  | .single d => .single (d.relocate f)
  | .list ds => .list (ds.map (Diagnostic.relocate f))

theorem State.verdict_relocate_eq (f : Position → Position) (s : State) :
    (s.relocate f).verdict = s.verdict.map (Failure.relocate f) := by
  have hmissing := missingLabels_relocate (f := f) s.labels s.jumps
  unfold verdict
  rw [show (s.relocate f).jumps = s.jumps.map fun jump => (jump.1, f jump.2) from rfl,
    labels_relocate, hmissing]
  cases missingLabels s.labels s.jumps <;> rfl

end Teeny
