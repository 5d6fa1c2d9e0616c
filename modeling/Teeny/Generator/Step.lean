import Teeny.Diagnostic
import Teeny.Generator.State

/-!
# One step of the code generator

`State.step` acts on one token. It emits the code that the token completes, and either goes on in a
new state, refuses the token, or, at the end of the input, has finished the program. What a step
does depends on the tokens up to this one only, so a refusal stands whatever follows.

A program becomes a `main` function. Variables are declared in the header at their first
assignment; statements and expressions become C with the same operators. A space is put between a
binary plus or minus and a sign, so that the two never read as one operator.
-/

namespace Teeny

namespace Kind

/-- Whether a token of this kind adds or subtracts, or is a sign. -/
def isAdditive (k : Kind) : Bool := k = .operator .plus || k = .operator .minus

/-- Whether a token of this kind multiplies or divides. -/
def isMultiplicative (k : Kind) : Bool := k = .operator .times || k = .operator .divide

end Kind

/-- How a step ends. -/
inductive Progress where
  | more (s : State)
  | finished (s : State)
  | refused (d : Diagnostic)
  deriving DecidableEq

/-- What a step does: the code it emits, and how it ends. -/
structure Move where
  emissions : List Emission
  progress : Progress
  deriving DecidableEq

namespace Move

/-- Goes on without emitting anything. -/
def proceed (s : State) : Move := ⟨[], .more s⟩

/-- Refuses a token. -/
def refuse (t : Token) (fault : Fault) : Move := ⟨[], .refused ⟨t.position, fault⟩⟩

/-- The same move after some emissions. -/
def after (es : List Emission) (m : Move) : Move := { m with emissions := es ++ m.emissions }

/-- Goes on in `s` if the token is of the given kind. -/
def expect (kind : Kind) (t : Token) (s : State) : Move :=
  if t.kind = kind then proceed s else refuse t (.expected kind t.toLexeme)

end Move

namespace State

open Move

/-- The lines in front of every program. -/
def preamble : List Emission :=
  [.header (bytes "#include <stdio.h>"), .header (bytes "int main(void) \x7b")]

/-- The lines behind every program. -/
def epilogue : List Emission := [.line (bytes "return 0;"), .line (bytes "\x7d")]

/-- The declaration of a variable, unless it has one. -/
def declaration (s : State) (name : Bytes) : List Emission :=
  if name ∈ s.assigned then [] else [.header (bytes "float " ++ name ++ bytes ";")]

/-- The state in which a variable has a value. -/
def assign (s : State) (name : Bytes) : State :=
  if name ∈ s.assigned then s else { s with assigned := s.assigned ++ [name] }

/-- The end of a statement's line. -/
def lineEnd (s : State) (t : Token) : Move := expect .newline t (s.enter .statement)

/-- A number or a variable with a value. -/
def primary (s : State) (purpose : Purpose) (t : Token) : Move :=
  match t.kind with
  | .number => ⟨[.code t.text], .more (s.enter (.operator purpose))⟩
  | .name =>
    if t.text ∈ s.assigned then ⟨[.code t.text], .more (s.enter (.operator purpose))⟩
    else refuse t (.unassignedVariable t.text)
  | _ => refuse t (.unexpectedOperand t.toLexeme)

/-- An operand, with or without a sign. -/
def operand (s : State) (purpose : Purpose) (afterSign : Bool) (t : Token) : Move :=
  if t.kind.isAdditive then
    after (if afterSign then [.code (bytes " ")] else [])
      ⟨[.code t.text], .more (s.enter (.signed purpose))⟩
  else s.primary purpose t

/-- The token behind an expression, which no operator continues. -/
def expressionEnd (s : State) (t : Token) : Purpose → Move
  | .print => after [.line (bytes "));")] (s.lineEnd t)
  | .assignment => after [.line (bytes ";")] (s.lineEnd t)
  | .condition block compared =>
    if t.kind.isComparison then
      ⟨[.code t.text], .more (s.enter (.operand (.condition block true) false))⟩
    else if compared then expect (.keyword block.opening) t (s.enter (.blockLine block))
    else refuse t (.expectedComparison t.toLexeme)

/-- The token behind an operand. -/
def operator (s : State) (purpose : Purpose) (t : Token) : Move :=
  if t.kind.isAdditive then ⟨[.code t.text], .more (s.enter (.operand purpose true))⟩
  else if t.kind.isMultiplicative then
    ⟨[.code t.text], .more (s.enter (.operand purpose false))⟩
  else s.expressionEnd t purpose

/-- What is printed: a string, or the value of an expression. -/
def print (s : State) (newline : Bool) (t : Token) : Move :=
  let ending := if newline then bytes "\\n" else []
  if t.kind = .string then
    ⟨[.line (bytes "printf(\"" ++ t.text ++ ending ++ bytes "\");")], .more (s.enter .lineEnd)⟩
  else
    after [.code (bytes "printf(\"%.2f" ++ ending ++ bytes "\", (float)(")]
      (s.operand .print false t)

/-- The name in a statement that needs one. -/
def name (s : State) (use : Naming) (t : Token) : Move :=
  if t.kind = .name then
    if use = .label ∧ t.text ∈ s.labels then refuse t (.duplicateLabel t.text)
    else proceed (s.enter (.named use t.text t.position))
  else refuse t (.expected .name t.toLexeme)

/-- The token behind that name. -/
def named (s : State) (name : Bytes) (position : Position) (t : Token) : Naming → Move
  | .label =>
    after [.line (name ++ bytes ":;")] (lineEnd { s with labels := s.labels ++ [name] } t)
  | .jump =>
    after [.line (bytes "goto " ++ name ++ bytes ";")]
      (lineEnd { s with jumps := s.jumps ++ [(name, position)] } t)
  | .assignment =>
    after (s.declaration name ++ [.code (name ++ bytes " = ")])
      (expect (.operator .assign) t ((s.assign name).enter (.operand .assignment false)))
  | .input =>
    after (s.declaration name ++
        [.line (bytes "if (0 == scanf(\"%f\", &" ++ name ++ bytes ")) \x7b"),
         .line (name ++ bytes " = 0;"), .line (bytes "scanf(\"%*s\");"), .line (bytes "\x7d")])
      ((s.assign name).lineEnd t)

/-- The first word of a statement. -/
def statement (s : State) (t : Token) : Move :=
  match t.kind with
  | .keyword .PRINT => proceed (s.enter (.print false))
  | .keyword .PRINTLN => proceed (s.enter (.print true))
  | .keyword .IF => proceed (s.enter (.condition .conditional))
  | .keyword .WHILE => proceed (s.enter (.condition .loop))
  | .keyword .LABEL => proceed (s.enter (.name .label))
  | .keyword .GOTO => proceed (s.enter (.name .jump))
  | .keyword .LET => proceed (s.enter (.name .assignment))
  | .keyword .INPUT => proceed (s.enter (.name .input))
  | _ => refuse t (.invalidStatement t.toLexeme)

/-- A statement, or the end of the innermost block, or of the program if no block is open. -/
def item (s : State) (t : Token) : Move :=
  match s.blocks with
  | [] => if t.kind = .eof then ⟨epilogue, .finished s⟩ else s.statement t
  | block :: outer =>
    if t.kind = .keyword block.closing then proceed { s with phase := .blockEnd, blocks := outer }
    else if t.kind = .eof then refuse t (.expected (.keyword block.closing) t.toLexeme)
    else s.statement t

/-- Empty lines, and then a statement or an end. -/
def itemLine (s : State) (t : Token) : Move :=
  if t.kind = .newline then proceed (s.enter .statement) else s.item t

/-- Empty lines, and then the first token inside a block, which counts as open from there. -/
def blockBody (bound : Option Nat) (s : State) (block : Block) (t : Token) : Move :=
  if t.kind = .newline then proceed s
  else
    let inside := { s with phase := .statement, blocks := block :: s.blocks }
    after [.line (bytes ") \x7b")]
      (match bound with
        | none => inside.item t
        | some n =>
          if inside.blocks.length > n then refuse t (.nestedTooDeep n) else inside.item t)

/-- Acts on one token. At most `bound` blocks may be open at once, if there is a bound. -/
def step (bound : Option Nat) (s : State) (t : Token) : Move :=
  match s.phase with
  | .opening => after preamble (s.itemLine t)
  | .statement => s.itemLine t
  | .print newline => s.print newline t
  | .condition block =>
    after [.code block.head] (s.operand (.condition block false) false t)
  | .name use => s.name use t
  | .named use name position => s.named name position t use
  | .operand purpose afterSign => s.operand purpose afterSign t
  | .signed purpose => s.primary purpose t
  | .operator purpose => s.operator purpose t
  | .blockLine block => expect .newline t (s.enter (.blockBody block))
  | .blockBody block => s.blockBody bound block t
  | .blockEnd => after [.line (bytes "\x7d")] (s.lineEnd t)
  | .lineEnd => s.lineEnd t

/-- The jumps whose target is not among the known labels, each target at its first jump only. -/
def missingLabels : List Bytes → List (Bytes × Position) → List Diagnostic
  | _, [] => []
  | known, (name, position) :: jumps =>
    if name ∈ known then missingLabels known jumps
    else ⟨position, .missingLabel name⟩ :: missingLabels (name :: known) jumps

/-- What a finished program is refused for, if anything. -/
def verdict (s : State) : Option Failure :=
  match missingLabels s.labels s.jumps with
  | [] => none
  | ds => some (.list ds)

end State

end Teeny
