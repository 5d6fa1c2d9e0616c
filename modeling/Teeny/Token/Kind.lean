import Teeny.Text.Bytes

/-!
# Kinds of tokens

The language has twelve reserved words and eleven operators, and besides them newlines, numbers,
names, strings and the end of the input. Kinds also have numeric codes; a code that no kind uses
still denotes a kind, `unassigned`, so that codes and kinds correspond one to one
(`ofCode_code`, `code_ofCode`).
-/

namespace Teeny

/-- The reserved words. -/
inductive Keyword where
  | LABEL
  | GOTO
  | PRINT
  | PRINTLN
  | INPUT
  | LET
  | IF
  | THEN
  | ENDIF
  | WHILE
  | REPEAT
  | ENDWHILE
  deriving DecidableEq

namespace Keyword

/-- The word as it is written in a source. -/
def spelling : Keyword → Bytes
  | LABEL => bytes "LABEL"
  | GOTO => bytes "GOTO"
  | PRINT => bytes "PRINT"
  | PRINTLN => bytes "PRINTLN"
  | INPUT => bytes "INPUT"
  | LET => bytes "LET"
  | IF => bytes "IF"
  | THEN => bytes "THEN"
  | ENDIF => bytes "ENDIF"
  | WHILE => bytes "WHILE"
  | REPEAT => bytes "REPEAT"
  | ENDWHILE => bytes "ENDWHILE"

/-- Every reserved word, in the order of the codes. -/
def all : List Keyword :=
  [LABEL, GOTO, PRINT, PRINTLN, INPUT, LET, IF, THEN, ENDIF, WHILE, REPEAT, ENDWHILE]

/-- The reserved word with this spelling; case matters. -/
def ofSpelling? (word : Bytes) : Option Keyword := all.find? fun k => k.spelling = word

theorem ofSpelling?_spelling (k : Keyword) : ofSpelling? k.spelling = some k := by
  cases k <;> decide

end Keyword

/-- The operators. -/
inductive Operator where
  | assign
  | plus
  | minus
  | times
  | divide
  | equal
  | notEqual
  | less
  | lessEqual
  | greater
  | greaterEqual
  deriving DecidableEq

namespace Operator

/-- The operator as it is written in a source, and in the generated code. -/
def spelling : Operator → Bytes
  | assign => bytes "="
  | plus => bytes "+"
  | minus => bytes "-"
  | times => bytes "*"
  | divide => bytes "/"
  | equal => bytes "=="
  | notEqual => bytes "!="
  | less => bytes "<"
  | lessEqual => bytes "<="
  | greater => bytes ">"
  | greaterEqual => bytes ">="

/-- Whether the operator compares two expressions. -/
def isComparison : Operator → Bool
  | equal | notEqual | less | lessEqual | greater | greaterEqual => true
  | assign | plus | minus | times | divide => false

end Operator

/-- What a token is. -/
inductive Kind where
  | unknown
  | eof
  | newline
  | number
  | name
  | string
  | keyword (k : Keyword)
  | operator (o : Operator)
  /-- The kind with the code `29 + extra`, which nothing in a source has. -/
  | unassigned (extra : Nat)
  deriving DecidableEq

namespace Kind

/-- The numeric code of a kind. -/
def code : Kind → Nat
  | unknown => 0
  | eof => 1
  | newline => 2
  | number => 3
  | name => 4
  | string => 5
  | keyword .LABEL => 6
  | keyword .GOTO => 7
  | keyword .PRINT => 8
  | keyword .PRINTLN => 9
  | keyword .INPUT => 10
  | keyword .LET => 11
  | keyword .IF => 12
  | keyword .THEN => 13
  | keyword .ENDIF => 14
  | keyword .WHILE => 15
  | keyword .REPEAT => 16
  | keyword .ENDWHILE => 17
  | operator .assign => 18
  | operator .plus => 19
  | operator .minus => 20
  | operator .times => 21
  | operator .divide => 22
  | operator .equal => 23
  | operator .notEqual => 24
  | operator .less => 25
  | operator .lessEqual => 26
  | operator .greater => 27
  | operator .greaterEqual => 28
  | unassigned extra => extra + 29

/-- The kind with a given code. -/
def ofCode : Nat → Kind
  | 0 => unknown
  | 1 => eof
  | 2 => newline
  | 3 => number
  | 4 => name
  | 5 => string
  | 6 => keyword .LABEL
  | 7 => keyword .GOTO
  | 8 => keyword .PRINT
  | 9 => keyword .PRINTLN
  | 10 => keyword .INPUT
  | 11 => keyword .LET
  | 12 => keyword .IF
  | 13 => keyword .THEN
  | 14 => keyword .ENDIF
  | 15 => keyword .WHILE
  | 16 => keyword .REPEAT
  | 17 => keyword .ENDWHILE
  | 18 => operator .assign
  | 19 => operator .plus
  | 20 => operator .minus
  | 21 => operator .times
  | 22 => operator .divide
  | 23 => operator .equal
  | 24 => operator .notEqual
  | 25 => operator .less
  | 26 => operator .lessEqual
  | 27 => operator .greater
  | 28 => operator .greaterEqual
  | extra + 29 => unassigned extra

theorem ofCode_code (k : Kind) : ofCode k.code = k := by
  cases k with
  | keyword k => cases k <;> rfl
  | operator o => cases o <;> rfl
  | _ => rfl

theorem code_ofCode (n : Nat) : (ofCode n).code = n := by
  unfold ofCode
  split <;> rfl

/-- The name of a kind: its spelling if it has only one. -/
def title : Kind → Bytes
  | unknown => bytes "UNKNOWN"
  | eof => bytes "EOF"
  | newline => bytes "newline"
  | number => bytes "number"
  | name => bytes "identifier"
  | string => bytes "string"
  | keyword k => k.spelling
  | operator o => o.spelling
  | unassigned extra => bytes "kind(" ++ Bytes.decimal (extra + 29) ++ bytes ")"

/-- The kind of a word: a reserved word or a name. -/
def ofWord (word : Bytes) : Kind :=
  match Keyword.ofSpelling? word with
  | some k => keyword k
  | none => name

/-- Whether a token of this kind is a reserved word. -/
def isKeyword : Kind → Bool
  | keyword _ => true
  | _ => false

/-- Whether a token of this kind is an operator. -/
def isOperator : Kind → Bool
  | operator _ => true
  | _ => false

/-- Whether a token of this kind compares two expressions. -/
def isComparison : Kind → Bool
  | operator o => o.isComparison
  | _ => false

end Kind

end Teeny
