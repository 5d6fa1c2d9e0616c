import Teeny.Proofs.Generator.Nesting
import Teeny.Proofs.Grammar.Recognition
import Teeny.Proofs.Grammar.Simulation

/-!
# The language that is accepted

A source is accepted exactly if it can be read, its lexemes are derived from the grammar, the names
in it are in scope, and its blocks do not nest more deeply than allowed (`accepted_iff`). That the
lexemes are derived is what `Recognition` shows of a run that finishes; for lexemes that are,
`Simulation` says what the run does, so the other conditions follow from the run and it from them.
-/

namespace Teeny

theorem State.verdict_relocate {f : Position → Position} {s : State} :
    (s.relocate f).verdict = none ↔ s.verdict = none := by
  rw [State.verdict_relocate_eq, Option.map_eq_none_iff]

theorem State.verdict_enter {s : State} (phase : Phase) :
    (s.enter phase).verdict = s.verdict := rfl

/-- Tokens are finished as their lexemes are, wherever these are put. -/
theorem State.steps_of_follow {bound : Option Nat} {place : Position} {ts : List Token}
    {es : List Emission} {s : State}
    (h : start.follow bound place (ts.map Token.toLexeme) = ⟨es, .finished s⟩) :
    ∃ s', start.steps bound ts = ⟨es, .finished s'⟩ ∧ (s'.verdict = none ↔ s.verdict = none) := by
  have hmoved := @follow_toLexeme bound place .start ts
  rw [relocate_start, h] at hmoved
  cases hm : start.steps bound ts with
  | mk fs progress =>
    rw [hm] at hmoved
    cases progress with
    | more s' => cases hmoved
    | finished s' =>
      injection hmoved with hes hprogress
      injection hprogress with hs
      refine ⟨s', by rw [hes], ?_⟩
      rw [hs]
      exact verdict_relocate.symm
    | refused d => cases hmoved

theorem State.follow_of_steps {bound : Option Nat} (place : Position) {ts : List Token}
    {s : State} (h : (start.steps bound ts).progress = .finished s) :
    ∃ s', (start.follow bound place (ts.map Token.toLexeme)).progress = .finished s' ∧
      (s'.verdict = none ↔ s.verdict = none) := by
  have hmoved := @follow_toLexeme bound place .start ts
  rw [relocate_start] at hmoved
  refine ⟨s.relocate fun _ => place, ?_, verdict_relocate⟩
  rw [hmoved, Move.relocate, h]
  rfl

namespace Run

variable {bound : Option Nat} {file source : Bytes}

/-- The steps on the tokens of a program that is in scope and fits emit its code, and finish it. -/
theorem steps_of_program {p : Program} {ts : List Token}
    (hp : p.lexemes = ts.map Token.toLexeme) (hscoped : Scoped p.body.mentions)
    (hfits : p.body.fits bound 0 = true) :
    ∃ s, State.start.steps bound ts = ⟨p.emissions, .finished s⟩ ∧ s.verdict = none := by
  -- Any place will do to put the lexemes at.
  obtain ⟨hadmits, hverdict⟩ := (State.scoped_iff (.start [])).1 hscoped
  obtain ⟨phase, hfinished⟩ := State.finished_program p hadmits hfits
  rw [hp] at hfinished
  obtain ⟨s, hsteps, hiff⟩ := State.steps_of_follow hfinished
  exact ⟨s, hsteps, hiff.2 hverdict⟩

/-- A program whose steps finish with no jump left over is in scope and fits. -/
theorem scoped_of_steps {p : Program} {ts : List Token} {s : State}
    (hp : p.lexemes = ts.map Token.toLexeme)
    (h : (State.start.steps bound ts).progress = .finished s) (hverdict : s.verdict = none) :
    Scoped p.body.mentions ∧ p.body.fits bound 0 = true := by
  obtain ⟨s', hfollow, hiff⟩ := State.follow_of_steps (.start []) h
  rw [← hp] at hfollow
  obtain ⟨hadmits, hfits, phase, hs'⟩ := State.of_finished_program hfollow
  refine ⟨(State.scoped_iff (.start [])).2 ⟨hadmits, ?_⟩, hfits⟩
  rw [← State.verdict_enter phase, ← hs']
  exact hiff.2 hverdict

/-- The lexemes of an accepted source are those of a program. -/
theorem exists_program (h : (ofSource bound file source).failure = none) :
    ∃ p : Program, p.lexemes = (scan file source).tokens.map Token.toLexeme := by
  obtain ⟨hfault, s, hfinished, -⟩ := failure_eq_none_iff.1 h
  obtain ⟨ts, e, htokens, -, hts⟩ := Cursor.exists_eof_of_fault_none _ hfault
  have hwell := Cursor.isWellFormed_of_mem_scan (.ofSource file source)
  rw [scan, htokens] at hfinished ⊢
  rw [htokens] at hwell
  exact State.exists_program_of_finished hts hwell hfinished

/-- A source with the lexemes of a program is accepted exactly if the program is in scope and
fits. -/
theorem failure_eq_none_iff_scoped {p : Program} (hfault : (scan file source).fault = none)
    (hp : p.lexemes = (scan file source).tokens.map Token.toLexeme) :
    (ofSource bound file source).failure = none ↔
      Scoped p.body.mentions ∧ p.body.fits bound 0 = true := by
  rw [failure_eq_none_iff]
  constructor
  · rintro ⟨-, s, hfinished, hverdict⟩
    exact scoped_of_steps hp hfinished hverdict
  · rintro ⟨hscoped, hfits⟩
    obtain ⟨s, hsteps, hverdict⟩ := steps_of_program hp hscoped hfits
    exact ⟨hfault, s, congrArg Move.progress hsteps, hverdict⟩

/-- What is accepted with a bound on the nesting is accepted without one. -/
theorem accepted_unbounded (h : (ofSource bound file source).failure = none) :
    (ofSource none file source).failure = none := by
  cases bound with
  | none => exact h
  | some n => exact (accepted_of_accepted h).1

/-- The blocks of a program fit a bound if the bound is not positive, or they nest no more deeply
than it says. -/
theorem fits_bound_iff {st : Statements} {n : Int} :
    st.fits (Depth.bound n) 0 = true ↔ (0 < n → (st.depth : Int) ≤ n) := by
  rw [Statements.fits_iff, Nat.zero_add]
  unfold Depth.bound
  split
  next h => simp [Depth.allows, Int.not_lt.2 h]
  next h =>
    rw [Depth.allows_some]
    omega

/-- A source is accepted exactly if it can be read, its lexemes are those of a program, the names
in the program are in scope, and its blocks nest no more deeply than a positive bound says. -/
theorem accepted_iff (maxDepth : Int) (file source : Bytes) :
    (ofSource (Depth.bound maxDepth) file source).failure = none ↔
      (scan file source).fault = none ∧
        ∃ p : Program, p.lexemes = (scan file source).tokens.map Token.toLexeme ∧
          Scoped p.body.mentions ∧ (0 < maxDepth → (p.body.depth : Int) ≤ maxDepth) := by
  constructor
  · intro h
    have hfault := (failure_eq_none_iff.1 h).1
    obtain ⟨p, hp⟩ := exists_program h
    obtain ⟨hscoped, hfits⟩ := (failure_eq_none_iff_scoped hfault hp).1 h
    exact ⟨hfault, p, hp, hscoped, fits_bound_iff.1 hfits⟩
  · rintro ⟨hfault, p, hp, hscoped, hdepth⟩
    exact (failure_eq_none_iff_scoped hfault hp).2 ⟨hscoped, fits_bound_iff.2 hdepth⟩

end Run

end Teeny
