import Teeny.Generator.Emission
import Teeny.Token.Basic

/-!
# States of the code generator

The generator reads a program one token at a time. A `Phase` says what has been read of the
statement at hand and so which tokens may follow; blocks are the only part of the language that
nests, so a list of the open blocks is all that has to be remembered beside it. The state also
holds the names seen so far: assigned variables, declared labels, and the targets of jumps with
the place of each.
-/

namespace Teeny

/-- The statements that hold other statements. -/
inductive Block where
  | conditional
  | loop
  deriving DecidableEq

namespace Block

/-- The word between the condition and the statements. -/
def opening : Block → Keyword
  | conditional => .THEN
  | loop => .REPEAT

/-- The word behind the statements. -/
def closing : Block → Keyword
  | conditional => .ENDIF
  | loop => .ENDWHILE

/-- The generated code in front of the condition. -/
def head : Block → Bytes
  | conditional => bytes "if ("
  | loop => bytes "while ("

end Block

/-- What an expression is read for. -/
inductive Purpose where
  | print
  | assignment
  /-- One side of a condition; `compared` if a comparison stands before it. -/
  | condition (block : Block) (compared : Bool)
  deriving DecidableEq

/-- The statements that consist of a word and a name, or start that way. -/
inductive Naming where
  | label
  | jump
  | assignment
  | input
  deriving DecidableEq

/-- What has been read of the statement at hand. -/
inductive Phase where
  /-- Nothing at all: the program starts here. -/
  | opening
  /-- Nothing: a statement, an empty line or the end of a block may follow. -/
  | statement
  /-- The word that prints; `newline` if it ends the printed line. -/
  | print (newline : Bool)
  /-- The word that starts a block. -/
  | condition (block : Block)
  /-- A word that a name has to follow. -/
  | name (use : Naming)
  /-- That name, which stands at `position`. -/
  | named (use : Naming) (name : Bytes) (position : Position)
  /-- An expression up to where an operand starts; `afterSign` if a binary plus or minus stands
  directly before it. -/
  | operand (purpose : Purpose) (afterSign : Bool)
  /-- An expression up to the sign of an operand. -/
  | signed (purpose : Purpose)
  /-- An expression up to the end of an operand. -/
  | operator (purpose : Purpose)
  /-- A condition and the word behind it. -/
  | blockLine (block : Block)
  /-- That, and the end of the line. -/
  | blockBody (block : Block)
  /-- A block and the word that closes it. -/
  | blockEnd
  /-- A whole statement up to the end of its line. -/
  | lineEnd
  deriving DecidableEq

/-- What the generator knows between two tokens. -/
structure State where
  phase : Phase
  /-- The open blocks, innermost first. -/
  blocks : List Block
  /-- The variables assigned so far, in the order of their first assignment. -/
  assigned : List Bytes
  /-- The labels declared so far. -/
  labels : List Bytes
  /-- The targets of the jumps so far, in order. -/
  jumps : List (Bytes × Position)
  deriving DecidableEq

namespace State

/-- Before the first token. -/
def start : State := ⟨.opening, [], [], [], []⟩

/-- The same knowledge in another phase. -/
def enter (s : State) (phase : Phase) : State := { s with phase }

end State

end Teeny
