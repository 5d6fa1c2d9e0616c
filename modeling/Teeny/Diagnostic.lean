import Teeny.Token.Basic

/-!
# Diagnostics

A fault is the reason why a source is refused, and `Fault.message` words it. A diagnostic is a
fault at a position. Reading a source stops at its first fault, except that jumps to missing labels
are only known at the end of the input and are reported together: `Failure` is either one
diagnostic or a list of them.
-/

namespace Teeny

/-- The level at which a source is refused. -/
inductive FaultKind where
  | lexical
  | syntactic
  | semantic
  /-- A level beyond the three, known by its number only. -/
  | unassigned (code : UInt8)
  deriving DecidableEq

namespace FaultKind

/-- The level with a given number. -/
def ofCode (code : UInt8) : FaultKind :=
  if code = 0 then lexical
  else if code = 1 then syntactic
  else if code = 2 then semantic
  else unassigned code

/-- The name of a level. -/
def title : FaultKind → Bytes
  | lexical => bytes "lexical error"
  | syntactic => bytes "syntax error"
  | semantic => bytes "semantic error"
  | unassigned code => bytes "ErrorKind(" ++ Bytes.decimal code.toNat ++ bytes ")"

end FaultKind

/-- Why a source is refused. -/
inductive Fault where
  /-- No token starts with this glyph. -/
  | unexpectedCharacter (g : Glyph)
  /-- An exclamation mark that no equals sign follows. -/
  | bareExclamation
  /-- A decimal point that no digit follows. -/
  | missingFraction
  /-- A character that a string must not hold. -/
  | illegalInString (c : Char)
  /-- A stray byte in a string. -/
  | malformedString
  /-- A string that its line does not close. -/
  | stringPastLine
  /-- A string that the input does not close. -/
  | stringPastEnd
  /-- A token of another kind has to stand here. -/
  | expected (kind : Kind) (found : Lexeme)
  /-- A comparison has to stand here. -/
  | expectedComparison (found : Lexeme)
  /-- No statement starts with this token. -/
  | invalidStatement (found : Lexeme)
  /-- No operand starts with this token. -/
  | unexpectedOperand (found : Lexeme)
  /-- More blocks are open than allowed. -/
  | nestedTooDeep (bound : Nat)
  /-- A variable is read that nothing has assigned. -/
  | unassignedVariable (name : Bytes)
  /-- A label is declared twice. -/
  | duplicateLabel (name : Bytes)
  /-- A jump goes to a label that nothing declares. -/
  | missingLabel (name : Bytes)
  /-- A fault of any level, in words given from outside. -/
  | other (kind : FaultKind) (message : Bytes)
  deriving DecidableEq

namespace Fault

/-- The level of a fault. -/
def kind : Fault → FaultKind
  | unexpectedCharacter _ | bareExclamation | missingFraction | illegalInString _
  | malformedString | stringPastLine | stringPastEnd => .lexical
  | expected .. | expectedComparison _ | invalidStatement _ | unexpectedOperand _
  | nestedTooDeep _ => .syntactic
  | unassignedVariable _ | duplicateLabel _ | missingLabel _ => .semantic
  | other kind _ => kind

/-- A fault in words. -/
def message : Fault → Bytes
  | unexpectedCharacter g => bytes "unexpected character " ++ Quoted.char g.shown
  | bareExclamation => bytes "illegal character '!': expected '!='"
  | missingFraction => bytes "illegal character in number: expected digit after '.'"
  | illegalInString c =>
    bytes "illegal character " ++ Quoted.char c ++ bytes " in string literal"
  | malformedString => bytes "invalid UTF-8 encoding in string literal"
  | stringPastLine => bytes "string literal not terminated before end of line"
  | stringPastEnd => bytes "string literal not terminated"
  | expected kind found =>
    bytes "expected " ++ kind.title ++ bytes ", got " ++ found.description
  | expectedComparison found =>
    bytes "expected comparison operator, got " ++ found.description
  | invalidStatement found =>
    bytes "invalid statement starting with " ++ found.description
  | unexpectedOperand found =>
    bytes "unexpected " ++ found.description ++ bytes " in expression"
  | nestedTooDeep bound => bytes "blocks nested deeper than " ++ Bytes.decimal bound
  | unassignedVariable name =>
    bytes "variable " ++ Quoted.text name ++ bytes " referenced before assignment"
  | duplicateLabel name => bytes "label " ++ Quoted.text name ++ bytes " already declared"
  | missingLabel name => bytes "GOTO to undeclared label " ++ Quoted.text name
  | other _ message => message

end Fault

/-- A fault at a position. -/
structure Diagnostic where
  position : Position
  fault : Fault
  deriving DecidableEq

namespace Diagnostic

/-- A diagnostic in words. -/
def message (d : Diagnostic) : Bytes := d.position.text ++ bytes ": " ++ d.fault.message

end Diagnostic

/-- Why a whole source is refused. -/
inductive Failure where
  /-- Reading stopped at the first fault. -/
  | single (d : Diagnostic)
  /-- Faults that were found together at the end. -/
  | list (ds : List Diagnostic)
  deriving DecidableEq

namespace Failure

/-- The diagnostics of a failure, in order. -/
def diagnostics : Failure → List Diagnostic
  | single d => [d]
  | list ds => ds

/-- A failure in words: the diagnostics, one below the other. -/
def message : Failure → Bytes
  | single d => d.message
  | list [] => bytes "no errors"
  | list ds => [Bytes.newline].intercalate (ds.map Diagnostic.message)

end Failure

end Teeny
