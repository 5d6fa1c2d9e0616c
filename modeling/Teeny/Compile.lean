import Teeny.Generator.Run

/-!
# Compiling a source

A source is compiled by running the generator on it and delivering the collected code. Code is
delivered only after the whole program has been accepted, so a refused program delivers nothing.

How deeply blocks may nest is a setting: a positive number is a bound, zero is the usual bound and
a negative number is no bound.
-/

namespace Teeny

namespace Depth

/-- The usual bound on open blocks. -/
def usual : Nat := 1000

/-- The bound that a number stands for: a number that is not positive is no bound. -/
def bound (n : Int) : Option Nat := if n ≤ 0 then none else some n.toNat

/-- The bound that a setting stands for: zero selects the usual one. -/
def ofSetting (n : Int) : Option Nat := if n = 0 then some usual else bound n

end Depth

/-- Why nothing, or not everything, was delivered. -/
inductive CompileError where
  /-- The program is faulty. -/
  | refused (failure : Failure)
  /-- The receiver did not take the code. -/
  | undelivered (cause : FinalizeError)
  deriving DecidableEq

namespace CompileError

/-- The reason in words. -/
def message : CompileError → Bytes
  | refused failure => failure.message
  | undelivered cause => bytes "writing output: " ++ cause.message

end CompileError

/-- The code of a program, if it is accepted. -/
def generate (bound : Option Nat) (file source : Bytes) : Except Failure CodeBuffer :=
  let run := Run.ofSource bound file source
  match run.failure with
  | none => .ok (CodeBuffer.empty.add run.emissions)
  | some failure => .error failure

/-- Compiles a source for a receiver with the given room: what it received, and why that is not
the whole code, if so. -/
def compile (bound : Option Nat) (file source : Bytes) (room : Option Int) :
    Bytes × Option CompileError :=
  match generate bound file source with
  | .error failure => ([], some (.refused failure))
  | .ok code =>
    let (_, received, error) := code.finalize room
    (received, error.map .undelivered)

/-- A refused program delivers nothing. -/
theorem compile_of_failure {bound : Option Nat} {file source : Bytes} {failure : Failure}
    (room : Option Int) (h : (Run.ofSource bound file source).failure = some failure) :
    compile bound file source room = ([], some (.refused failure)) := by
  simp [compile, generate, h]

end Teeny
