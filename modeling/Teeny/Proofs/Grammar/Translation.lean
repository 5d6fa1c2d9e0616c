import Teeny.Proofs.Grammar.Acceptance
import Teeny.Proofs.Grammar.Text

/-!
# The code that is delivered

What an accepted source emits is the code of its tree, which is defined by recursion on the tree
(`Program.emissions`). A receiver without a limit gets its text, the header lines and then the body
(`Program.text`); a source that is refused delivers nothing.
-/

namespace Teeny

/-- The text of emissions: the header lines, and then the body. -/
def Emission.text (es : List Emission) : Bytes := headerOf es ++ bodyOf es

theorem Program.text_eq (p : Program) : p.text = Emission.text p.emissions := by
  refine congr (congrArg HAppend.hAppend ?_) ?_
  · exact congrArg (p.emissions.flatMap ·) (funext fun e => by cases e <;> rfl)
  · exact congrArg (p.emissions.flatMap ·) (funext fun e => by cases e <;> rfl)

/-- A receiver that took everything has received it all. -/
theorem Delivery.received_of_complete {room : Option Int} {pieces : List Bytes}
    (h : (offer room pieces).complete = true) : (offer room pieces).received = pieces.flatten := by
  induction pieces generalizing room with
  | nil => rfl
  | cons piece pieces ih =>
    cases hfits : fits room piece.length with
    | true =>
      rw [offer_cons_of_fits pieces hfits] at h ⊢
      rw [List.flatten_cons, ← ih h]
    | false =>
      rw [offer_cons_of_not_fits pieces hfits] at h
      cases h

variable {bound : Option Nat} {file source : Bytes}

/-- What an accepted source delivers: the header and the body, as far as the receiver takes
them. -/
theorem compile_of_accepted (room : Option Int) {es : List Emission}
    (h : (Run.ofSource bound file source).failure = none)
    (hes : (Run.ofSource bound file source).emissions = es) :
    compile bound file source room =
      ((Delivery.offer room [Emission.headerOf es, Emission.bodyOf es]).received,
        if (Delivery.offer room [Emission.headerOf es, Emission.bodyOf es]).complete then none
        else some (.undelivered .refused)) := by
  subst hes
  simp only [compile, generate, h, CodeBuffer.finalize, CodeBuffer.empty, CodeBuffer.add,
    CodeBuffer.pieces, List.nil_append, Bool.false_eq_true, if_false]
  refine Prod.ext rfl ?_
  exact apply_ite (Option.map CompileError.undelivered) _ _ _

/-- What is delivered whole is the code of an accepted source. -/
theorem accepted_of_compile {room : Option Int} {output : Bytes}
    (h : compile bound file source room = (output, none)) :
    (Run.ofSource bound file source).failure = none ∧
      output = Emission.text (Run.ofSource bound file source).emissions := by
  cases hfailure : (Run.ofSource bound file source).failure with
  | some failure =>
    rw [compile_of_failure room hfailure] at h
    cases h
  | none =>
    refine ⟨rfl, ?_⟩
    rw [compile_of_accepted room hfailure rfl] at h
    obtain ⟨houtput, hnone⟩ := Prod.mk.inj h
    split at hnone
    next hcomplete =>
      rw [← houtput, Delivery.received_of_complete hcomplete]
      simp [Emission.text]
    next => cases hnone

/-- The code of an accepted source is the code of its tree. -/
theorem Run.emissions_of_program {p : Program}
    (h : (ofSource bound file source).failure = none)
    (hp : p.lexemes = (scan file source).tokens.map Token.toLexeme) :
    (ofSource bound file source).emissions = p.emissions := by
  have hfault := (failure_eq_none_iff.1 h).1
  obtain ⟨hscoped, hfits⟩ := (failure_eq_none_iff_scoped hfault hp).1 h
  obtain ⟨s, hsteps, -⟩ := steps_of_program hp hscoped hfits
  rw [(ofSource_eq_steps bound file source).1, Scan.acted_of_fault_none hfault, hsteps]

/-- An accepted source has a tree, emits the code of its tree, and delivers that code to a receiver
without a limit. A refused source delivers nothing but the reason. -/
theorem compile_eq_translation (bound : Option Nat) (file source : Bytes) :
    ((Run.ofSource bound file source).failure = none →
      (∃ p : Program, p.lexemes = (scan file source).tokens.map Token.toLexeme) ∧
        ∀ p : Program, p.lexemes = (scan file source).tokens.map Token.toLexeme →
          (Run.ofSource bound file source).emissions = p.emissions ∧
            compile bound file source none = (p.text, none)) ∧
      ∀ failure, (Run.ofSource bound file source).failure = some failure →
        ∀ room, compile bound file source room = ([], some (.refused failure)) := by
  refine ⟨fun h => ⟨Run.exists_program h, fun p hp => ?_⟩, fun failure h room => ?_⟩
  · have hes := Run.emissions_of_program h hp
    refine ⟨hes, ?_⟩
    rw [compile_of_accepted none h hes, Delivery.offer_none, p.text_eq]
    simp [Emission.text]
  · exact compile_of_failure room h

/-- One source that is accepted, with its tree, and one that is refused. -/
theorem compile_eq_translation_of_let :
    compile none [] (bytes "LET a = 1 - -2\nPRINTLN a\n") none =
        (bytes "#include <stdio.h>\nint main(void) \x7b\nfloat a;\na = 1- -2;\n" ++
          bytes "printf(\"%.2f\\n\", (float)(a));\nreturn 0;\n\x7d\n", none) ∧
      compile none [] (bytes "GOTO a") none =
        ([], some (.refused (.list [⟨⟨[], 1, 6⟩, .missingLabel (bytes "a")⟩]))) := by
  have haccepted : (Run.ofSource none [] (bytes "LET a = 1 - -2\nPRINTLN a\n")).failure = none := by
    decide +kernel
  have hrefused : (Run.ofSource none [] (bytes "GOTO a")).failure =
      some (.list [⟨⟨[], 1, 6⟩, .missingLabel (bytes "a")⟩]) := by
    decide +kernel
  let a : Identifier := ⟨bytes "a", by decide⟩
  let difference : Expression :=
    ⟨⟨⟨none, .number ⟨bytes "1", by decide⟩⟩, []⟩,
      [(⟨.minus, rfl⟩, ⟨⟨some ⟨.minus, rfl⟩, .number ⟨bytes "2", by decide⟩⟩, []⟩)]⟩
  let tree : Program :=
    ⟨0, .simple (.assignment a difference) 0
      (.simple (.printValue true (.ofOperand ⟨none, .reference a⟩)) 1 .nil)⟩
  obtain ⟨-, hout⟩ :=
    ((compile_eq_translation none [] _).1 haccepted).2 tree (by decide +kernel)
  refine ⟨hout.trans (by decide +kernel), ?_⟩
  exact (compile_eq_translation none [] _).2 _ hrefused none

end Teeny
