import Teeny.Command.Run
import Teeny.Proofs.Files.Numbers
import Teeny.Proofs.Generator.Steps

/-!
# What the command makes of a compilation

The command compiles a file step by step, as `compileFile` does, and says in its own words how that
ended. A refused program always has a diagnostic (`diagnostics_ne_nil`), so the lines of its report
are the lines of its message (`report_eq_line`), and the two ways to compile a file agree in what is
left in the tree, in success and in words (`compile_agrees_with_library`).
-/

namespace Teeny

/-! ## Reports -/

/-- A run that fails has found something. -/
theorem Run.diagnostics_ne_nil {bound : Option Nat} {file source : Bytes} {failure : Failure}
    (h : (ofSource bound file source).failure = some failure) : failure.diagnostics ≠ [] := by
  rcases failure_cases bound file source with ⟨f, -, hsingle⟩ | ⟨s, -, -, hverdict⟩ |
    ⟨-, -, -, -, -, d, -, -, -, hsingle⟩
  · rw [hsingle] at h
    cases h
    exact List.cons_ne_nil _ _
  · rw [hverdict] at h
    unfold State.verdict at h
    split at h
    next => cases h
    next hne =>
      cases h
      exact hne
  · rw [hsingle] at h
    cases h
    exact List.cons_ne_nil _ _

/-- The words of a failure are those of its diagnostics, with a newline between two. -/
theorem Failure.message_eq_intercalate {failure : Failure} (h : failure.diagnostics ≠ []) :
    failure.message = [Bytes.newline].intercalate (failure.diagnostics.map Diagnostic.message) := by
  cases failure with
  | single d => exact (List.intercalate_singleton ..).symm
  | list ds =>
    unfold message
    split
    next heq => cases heq
    next heq =>
      cases heq
      exact absurd rfl h
    next heq =>
      cases heq
      rfl

namespace Command

theorem flatMap_line {messages : List Bytes} (h : messages ≠ []) :
    messages.flatMap Bytes.line = Bytes.line ([Bytes.newline].intercalate messages) := by
  induction messages with
  | nil => exact absurd rfl h
  | cons m messages ih =>
    cases messages with
    | nil => simp [List.intercalate, Bytes.line]
    | cons m' messages =>
      rw [List.flatMap_cons, ih (List.cons_ne_nil _ _), List.intercalate_cons_cons]
      simp [Bytes.line]

/-- A report is the message of the failure as a line. -/
theorem report_eq_line {failure : Failure} (h : failure.diagnostics ≠ []) :
    report failure = Bytes.line failure.message := by
  have hne : failure.diagnostics.map Diagnostic.message ≠ [] := fun hnil =>
    h (List.map_eq_nil_iff.1 hnil)
  rw [Failure.message_eq_intercalate h, ← flatMap_line hne, List.flatMap_map]
  rfl

/-- What the command says where compiling a file fails: the message of the failure of a program as
it is, and any other message as that of an error, without the remark that reading failed. -/
def wording (error : FileCompileError) : Bytes :=
  match error with
  | .refused _ => Bytes.line error.message
  | .unread _ => errorLine (error.message.drop (bytes "reading source: ").length)
  | .undelivered _ | .output _ => errorLine error.message

/-! ## Compiling -/

/-- What the command makes of the end of a compilation. -/
def Result.ofCompilation (ended : Volume × Option FileCompileError) : Result :=
  ⟨if ended.2.isNone then 0 else 1, [], (ended.2.map wording).getD [], ended.1⟩

/-- A result with the lines of a trace in front of its messages. -/
def Result.traced (trace : Bytes) (r : Result) : Result := { r with stderr := trace ++ r.stderr }

/-- The command compiles a file and says how that ended, behind the lines of the trace. -/
theorem exists_traced (host : Host) (o : Options) (file : Bytes) (v : Volume) :
    ∃ stages, compile host o file v = Result.traced (traceLines host o stages)
      (.ofCompilation (v.compileFile (Depth.ofSetting o.maxDepth) file (destination o file)
        host.digits)) := by
  unfold compile Volume.compileFile
  cases hread : v.tree.read file with
  | error e => exact ⟨_, rfl⟩
  | ok source =>
    cases hcreate : v.create (destination o file) host.digits with
    | error e => exact ⟨_, rfl⟩
    | ok created =>
      obtain ⟨output, w⟩ := created
      dsimp only
      cases hcode : generate (Depth.ofSetting o.maxDepth) file source with
      | error failure =>
        have hfailure : (Run.ofSource (Depth.ofSetting o.maxDepth) file source).failure =
            some failure := by
          unfold generate at hcode
          dsimp only at hcode
          split at hcode
          next => cases hcode
          next heq =>
            cases hcode
            exact heq
        dsimp only
        rw [report_eq_line (Run.diagnostics_ne_nil hfailure)]
        exact ⟨_, rfl⟩
      | ok code =>
        dsimp only
        cases hwrite : w.writeAll output code.pieces with
        | error e => exact ⟨_, rfl⟩
        | ok x =>
          dsimp only
          obtain ⟨closed, y, error⟩ := x.commit output
          cases error with
          | none => exact ⟨["read", "translate", "write", "total"],
              congrArg (Result.mk 0 [] · y) (List.append_nil _).symm⟩
          | some e => exact ⟨_, rfl⟩

end Command

end Teeny
