import Teeny.Generator.Run

/-!
# Calls on a code buffer

One buffer may be used many times over: pieces of code are added to it, whole programs are generated
into it, and it is finalized, all in any order. Each call answers with the number of bytes that the
buffer then holds, and with what came of the program or of the finalization.
-/

namespace Teeny.CodeBuffer

/-- What may be done with a buffer. -/
inductive Call where
  /-- A piece of code is added. -/
  | emit (e : Emission)
  /-- A program is generated into it, up to a fault if there is one. -/
  | generate (bound : Option Nat) (file source : Bytes)
  /-- It is finalized for a receiver with the given room. -/
  | finalize (room : Option Int)

/-- What is seen of a call. -/
structure Answer where
  /-- How many bytes the buffer holds afterwards. -/
  size : Nat
  /-- Why a program was refused. -/
  failure : Option Failure
  /-- Of a finalization, what the receiver took and what went wrong. -/
  delivered : Option (Bytes × Option FinalizeError)

/-- One call. -/
def call (b : CodeBuffer) : Call → CodeBuffer × Answer
  | .emit e => (b.add [e], ⟨(b.add [e]).size, none, none⟩)
  | .generate bound file source =>
    let run := Run.ofSource bound file source
    let b := b.add run.emissions
    (b, ⟨b.size, run.failure, none⟩)
  | .finalize room =>
    let (b, received, error) := b.finalize room
    (b, ⟨b.size, none, some (received, error)⟩)

/-- The answers to some calls, one after the other. -/
def answers : CodeBuffer → List Call → List Answer
  | _, [] => []
  | b, c :: calls => (b.call c).2 :: answers (b.call c).1 calls

end Teeny.CodeBuffer
