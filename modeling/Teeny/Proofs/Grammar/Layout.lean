import Teeny.Proofs.Grammar.Acceptance
import Teeny.Proofs.Grammar.Injectivity

/-!
# Layout does not matter

Blanks and comments leave no trace in the lexemes of a source, so all that layout can change there
is the number of line ends in a row. The generator reads a line end in two ways only. Where empty
lines may stand it passes over it and stays as it is (`step_of_skipsLines`); elsewhere the line end
either is refused or leads to a place where empty lines may stand (`skipsLines_of_step`). So a run
does the same on lexemes with empty lines and without (`follow_collapse`).

What is left of a difference is where things stand, and the generator does not look at positions.
Two sources that are the same but for layout therefore have the same code, and are refused for the
same reasons (`layout_irrelevant`).
-/

namespace Teeny

/-! ## Line ends -/

/-- Whether empty lines may stand here. -/
def Phase.skipsLines : Phase → Bool
  | .statement | .blockBody _ => true
  | _ => false

namespace State

variable {bound : Option Nat} {place : Position}

/-- Where empty lines may stand, a line end changes nothing. -/
theorem step_of_skipsLines {s : State} {t : Token} (hs : s.phase.skipsLines = true)
    (ht : t.kind = .newline) : s.step bound t = ⟨[], .more s⟩ := by
  cases hphase : s.phase with
  | statement =>
    have hstep : s.step bound t = ⟨[], .more (s.enter .statement)⟩ := by
      simp only [step, hphase, itemLine, ht, if_true]
      rfl
    rw [hstep, enter_of_phase hphase]
  | blockBody b =>
    rw [step, hphase]
    exact blockBody_newline ht
  | _ =>
    rw [hphase] at hs
    cases hs

theorem expect_newline {t : Token} (ht : t.kind = .newline) {k : Kind} {s s' : State}
    (hk : k ≠ .newline) : (Move.expect k t s).progress ≠ .more s' := by
  rw [Move.expect, ht, if_neg (Ne.symm hk)]
  simp [Move.refuse]

theorem lineEnd_newline {t : Token} (ht : t.kind = .newline) {s s' : State}
    (h : (s.lineEnd t).progress = .more s') : s'.phase.skipsLines = true := by
  rw [lineEnd, Move.expect, if_pos ht] at h
  cases h
  rfl

theorem primary_newline {t : Token} (ht : t.kind = .newline) {p : Purpose} {s s' : State} :
    (s.primary p t).progress ≠ .more s' := by
  simp [primary, ht, Move.refuse]

theorem operand_newline {t : Token} (ht : t.kind = .newline) {p : Purpose} {afterSign : Bool}
    {s s' : State} : (s.operand p afterSign t).progress ≠ .more s' := by
  simpa [operand, ht, Kind.isAdditive] using primary_newline ht

theorem operator_newline {t : Token} (ht : t.kind = .newline) {p : Purpose} {s s' : State}
    (h : (s.operator p t).progress = .more s') : s'.phase.skipsLines = true := by
  have hend : s.operator p t = s.expressionEnd t p := by
    simp [operator, ht, Kind.isAdditive, Kind.isMultiplicative]
  rw [hend] at h
  cases p with
  | print => exact lineEnd_newline ht h
  | assignment => exact lineEnd_newline ht h
  | condition b compared =>
    cases compared with
    | false => simp [expressionEnd, ht, Kind.isComparison, Move.refuse] at h
    | true =>
      simp only [expressionEnd, ht, Kind.isComparison, Bool.false_eq_true, if_false, if_true] at h
      exact absurd h (expect_newline ht (by simp))

theorem named_newline {t : Token} (ht : t.kind = .newline) {x : Bytes} {position : Position}
    {use : Naming} {s s' : State} (h : (s.named x position t use).progress = .more s') :
    s'.phase.skipsLines = true := by
  cases use with
  | label => exact lineEnd_newline ht h
  | jump => exact lineEnd_newline ht h
  | assignment => exact absurd h (expect_newline ht (by simp))
  | input => exact lineEnd_newline ht h

/-- Behind a line end that is not refused, empty lines may stand. -/
theorem skipsLines_of_step {s s' : State} {t : Token} (ht : t.kind = .newline)
    (h : (s.step bound t).progress = .more s') : s'.phase.skipsLines = true := by
  have hitemLine : s.itemLine t = .proceed (s.enter .statement) := if_pos ht
  cases hphase : s.phase <;> simp only [step, hphase, Move.progress_after] at h
  case opening =>
    rw [hitemLine] at h
    cases h
    rfl
  case statement =>
    rw [hitemLine] at h
    cases h
    rfl
  case print newline =>
    simp only [print, ht] at h
    exact absurd h (operand_newline ht)
  case condition b => exact absurd h (operand_newline ht)
  case name use => simp [name, ht, Move.refuse] at h
  case named use x position => exact named_newline ht h
  case operand p afterSign => exact absurd h (operand_newline ht)
  case signed p => exact absurd h (primary_newline ht)
  case operator p => exact operator_newline ht h
  case blockLine b =>
    rw [Move.expect, if_pos ht] at h
    cases h
    rfl
  case blockBody b =>
    rw [blockBody_newline ht] at h
    cases h
    rw [hphase]
    rfl
  case blockEnd => exact lineEnd_newline ht h
  case lineEnd => exact lineEnd_newline ht h

/-- A run does the same with empty lines and without. -/
theorem follow_collapse (s : State) (ls : List Lexeme) {afterLine : Bool}
    (hs : afterLine = true → s.phase.skipsLines = true) :
    s.follow bound place (Lexeme.collapse afterLine ls) = s.follow bound place ls := by
  induction ls generalizing s afterLine with
  | nil => rfl
  | cons l ls ih =>
    -- behind a step that goes on, the rest is collapsed by what the lexeme was
    have hrest : ∀ afterLine, (∀ s', (s.step bound ⟨l, place⟩).progress = .more s' →
        afterLine = true → s'.phase.skipsLines = true) →
        s.follow bound place (l :: Lexeme.collapse afterLine ls) =
          s.follow bound place (l :: ls) := by
      intro afterLine hs'
      rw [follow_cons, follow_cons]
      cases hm : s.step bound ⟨l, place⟩ with
      | mk es p =>
        rw [hm] at hs'
        cases p with
        | more s' => rw [Move.andThen_more, Move.andThen_more, ih s' (hs' s' rfl)]
        | finished s' => rfl
        | refused d => rfl
    rw [Lexeme.collapse]
    by_cases hl : l.kind = .newline
    · rw [if_pos hl]
      cases afterLine with
      | true =>
        rw [if_pos rfl, ih s hs, follow_cons, step_of_skipsLines (hs rfl) (by exact hl)]
        rfl
      | false =>
        rw [if_neg (by simp)]
        exact hrest true fun s' h _ => skipsLines_of_step (by exact hl) h
    · rw [if_neg hl]
      exact hrest false fun s' _ h => by cases h

end State

/-! ## What comes of lexemes -/

/-- What a move emits, and why it is refused, if it is. -/
def Move.outcome (m : Move) : List Emission × Option Failure :=
  (m.emissions, m.progress.failure none)

theorem Move.outcome_relocate (f : Position → Position) (m : Move) :
    (m.relocate f).outcome =
      (m.emissions, (m.progress.failure none).map (Failure.relocate f)) := by
  obtain ⟨es, p⟩ := m
  cases p with
  | more s => rfl
  | finished s => exact congrArg (Prod.mk es) (State.verdict_relocate_eq f s)
  | refused d => rfl

/-- What comes of a program is what comes of its statements, behind the lines in front. -/
theorem State.outcome_opening {bound : Option Nat} {place : Position} {ls : List Lexeme}
    (hne : ls ≠ []) :
    (start.follow bound place ls).outcome =
      (Move.after preamble ((start.enter .statement).follow bound place ls)).outcome := by
  cases ls with
  | nil => exact absurd rfl hne
  | cons l ls =>
    by_cases hl : l.kind = .eof
    · -- the end of the input finishes the program, in either phase
      have hend : ∀ s : State, s.blocks = [] →
          s.itemLine ⟨l, place⟩ = ⟨epilogue, .finished s⟩ := by
        intro s hblocks
        have hnewline : l.kind ≠ .newline := by simp [hl]
        rw [itemLine, if_neg hnewline, item, hblocks]
        exact if_pos hl
      have hfirst : start.step bound ⟨l, place⟩ = ⟨preamble ++ epilogue, .finished start⟩ :=
        congrArg (Move.after preamble) (hend start rfl)
      have hlater : (start.enter .statement).step bound ⟨l, place⟩ =
          ⟨epilogue, .finished (start.enter .statement)⟩ := hend _ rfl
      rw [follow_cons, follow_cons, hfirst, hlater]
      rfl
    · rw [follow_opening ls hl]

/-- What comes of a program does not depend on the empty lines in it. -/
theorem State.outcome_collapse {bound : Option Nat} {place : Position} {ls : List Lexeme}
    (hne : ls ≠ []) :
    (start.follow bound place ls).outcome =
      (Move.after preamble ((start.enter .statement).follow bound place
        (Lexeme.withoutBlankLines ls))).outcome := by
  rw [outcome_opening hne, Lexeme.withoutBlankLines, follow_collapse _ _ fun _ => rfl]

/-- A source that can be read has a last token at least. -/
theorem lexemes_ne_nil {file source : Bytes} (hfault : (scan file source).fault = none) :
    (scan file source).tokens.map Token.toLexeme ≠ [] := by
  obtain ⟨ts, e, htokens, -⟩ := Cursor.exists_eof_of_fault_none _ hfault
  rw [scan, htokens]
  simp

/-- What comes of a source that can be read is what comes of its lexemes, but for positions. -/
theorem Run.outcome_eq_follow {bound : Option Nat} {file source : Bytes}
    (hfault : (scan file source).fault = none) (place : Position) :
    ((ofSource bound file source).emissions,
        (ofSource bound file source).failure.map (Failure.relocate fun _ => place)) =
      (State.start.follow bound place ((scan file source).tokens.map Token.toLexeme)).outcome := by
  have hmoved := @State.follow_toLexeme bound place .start (scan file source).tokens
  rw [State.relocate_start] at hmoved
  obtain ⟨hes, hfailure⟩ := ofSource_eq_steps bound file source
  rw [Scan.acted_of_fault_none hfault] at hes hfailure
  rw [hmoved, Move.outcome_relocate, hes, hfailure, hfault]

/-- Failures that are the same but for positions have the same faults. -/
theorem Failure.faults_of_relocate {place : Position} {failure failure' : Failure}
    (h : (failure.relocate fun _ => place) = failure'.relocate fun _ => place) :
    failure.diagnostics.map Diagnostic.fault = failure'.diagnostics.map Diagnostic.fault := by
  have hfaults : ∀ failure : Failure,
      (failure.relocate fun _ => place).diagnostics.map Diagnostic.fault =
        failure.diagnostics.map Diagnostic.fault := by
    intro failure
    cases failure with
    | single d => rfl
    | list ds => simp [relocate, diagnostics, Function.comp_def, Diagnostic.relocate]
  rw [← hfaults failure, h, hfaults]

/-- Two sources that can be read, and whose lexemes are the same but for empty lines, are both
accepted or both refused, and emit the same either way. Where they are refused, the reports are the
same but for the places in them: as many, of the same kinds, in the same words and order. -/
theorem Run.layout_irrelevant (bound : Option Nat) (file source file' source' : Bytes)
    (hfault : (scan file source).fault = none) (hfault' : (scan file' source').fault = none)
    (h : Lexeme.withoutBlankLines ((scan file source).tokens.map Token.toLexeme) =
      Lexeme.withoutBlankLines ((scan file' source').tokens.map Token.toLexeme)) :
    (ofSource bound file source).emissions = (ofSource bound file' source').emissions ∧
      ((ofSource bound file source).failure = none ∧
          (ofSource bound file' source').failure = none ∨
        ∃ failure failure', (ofSource bound file source).failure = some failure ∧
          (ofSource bound file' source').failure = some failure' ∧
          (∀ place, (failure.relocate fun _ => place) = failure'.relocate fun _ => place) ∧
          failure.diagnostics.map (fun d => (d.fault.kind, d.fault.message)) =
            failure'.diagnostics.map fun d => (d.fault.kind, d.fault.message)) := by
  have hsame : ∀ place,
      ((ofSource bound file source).emissions,
          (ofSource bound file source).failure.map (Failure.relocate fun _ => place)) =
        ((ofSource bound file' source').emissions,
          (ofSource bound file' source').failure.map (Failure.relocate fun _ => place)) := by
    intro place
    rw [outcome_eq_follow hfault, outcome_eq_follow hfault',
      State.outcome_collapse (lexemes_ne_nil hfault),
      State.outcome_collapse (lexemes_ne_nil hfault'), h]
  refine ⟨congrArg Prod.fst (hsame (.start [])), ?_⟩
  have hfailure : ∀ place,
      (ofSource bound file source).failure.map (Failure.relocate fun _ => place) =
        (ofSource bound file' source').failure.map (Failure.relocate fun _ => place) :=
    fun place => congrArg Prod.snd (hsame place)
  cases hfirst : (ofSource bound file source).failure with
  | none =>
    rw [hfirst] at hfailure
    exact Or.inl ⟨rfl, Option.map_eq_none_iff.1 (hfailure (.start [])).symm⟩
  | some failure =>
    rw [hfirst] at hfailure
    obtain ⟨failure', hsecond, -⟩ := Option.map_eq_some_iff.1 (hfailure (.start [])).symm
    rw [hsecond] at hfailure
    have hrelocate := fun place => Option.some.inj (hfailure place)
    have hfaults := Failure.faults_of_relocate (hrelocate (.start []))
    refine Or.inr ⟨failure, failure', rfl, hsecond, hrelocate, ?_⟩
    have hwords := congrArg (List.map fun fault : Fault => (fault.kind, fault.message)) hfaults
    rw [List.map_map, List.map_map] at hwords
    exact hwords

/-- Two layouts of a program with two jumps to nowhere. -/
theorem Run.layout_irrelevant_of_jumps :
    ∃ failure failure',
      (ofSource none (bytes "a") (bytes "GOTO x\nGOTO y")).failure = some failure ∧
      (ofSource none (bytes "b") (bytes "# jumps\n\n\tGOTO x # far\r\n\n GOTO  y\n")).failure =
        some failure' ∧
      (∀ place, (failure.relocate fun _ => place) = failure'.relocate fun _ => place) := by
  have hrefused : (ofSource none (bytes "a") (bytes "GOTO x\nGOTO y")).failure ≠ none := by
    decide +kernel
  rcases (Run.layout_irrelevant none (bytes "a") (bytes "GOTO x\nGOTO y") (bytes "b")
    (bytes "# jumps\n\n\tGOTO x # far\r\n\n GOTO  y\n") (by decide +kernel) (by decide +kernel)
    (by decide +kernel)).2 with
    ⟨haccepted, -⟩ | ⟨failure, failure', hfirst, hsecond, hsame, -⟩
  · exact absurd haccepted hrefused
  · exact ⟨failure, failure', hfirst, hsecond, hsame⟩

end Teeny
