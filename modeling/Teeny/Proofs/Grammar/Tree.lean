import Teeny.Generator.Step
import Teeny.Proofs.Token.Form

/-!
# Programs as trees

The grammar of the language, as types: a value of `Program` is a derivation of a program from the
grammar, down to the number of empty lines behind each statement. `lexemes` is the sequence of
lexemes that is derived. Three more functions follow the same structure:

* `mentions`, the names that a program assigns, uses, declares and jumps to, in the order of its
  lexemes, over which the rules of scope are stated (`Scoped`);
* `depth`, how deeply its blocks nest;
* `emissions`, the code that it stands for, and `Program.text`, how that code is written.

Nothing here speaks of the generator; that it accepts the lexemes of the trees in scope, and emits
their code, is what the modules beside this one prove.
-/

namespace Teeny

/-! ## Leaves -/

/-- A name. -/
structure Identifier where
  text : Bytes
  isName : text.isName = true
  deriving DecidableEq

/-- A number as it is written. -/
structure Numeral where
  text : Bytes
  isNumeral : text.isNumeral = true
  deriving DecidableEq

/-- What stands between quotes. -/
structure Literal where
  text : Bytes
  isPlain : text.isPlain = true
  deriving DecidableEq

namespace Lexeme

/-- A reserved word. -/
def ofKeyword (k : Keyword) : Lexeme := ⟨.keyword k, k.spelling⟩

/-- An operator. -/
def ofOperator (o : Operator) : Lexeme := ⟨.operator o, o.spelling⟩

/-- A name. -/
def ofIdentifier (x : Identifier) : Lexeme := ⟨.name, x.text⟩

/-- A number. -/
def ofNumeral (n : Numeral) : Lexeme := ⟨.number, n.text⟩

/-- A string. -/
def ofLiteral (l : Literal) : Lexeme := ⟨.string, l.text⟩

@[simp] theorem kind_ofKeyword (k : Keyword) : (ofKeyword k).kind = .keyword k := rfl

@[simp] theorem kind_ofOperator (o : Operator) : (ofOperator o).kind = .operator o := rfl

@[simp] theorem kind_ofIdentifier (x : Identifier) : (ofIdentifier x).kind = .name := rfl

@[simp] theorem kind_ofNumeral (n : Numeral) : (ofNumeral n).kind = .number := rfl

@[simp] theorem kind_ofLiteral (l : Literal) : (ofLiteral l).kind = .string := rfl

/-- One line end and `blank` more for the empty lines behind it. -/
def lineEnd (blank : Nat) : List Lexeme := List.replicate (blank + 1) newline

end Lexeme

namespace Operator

/-- Whether an operator adds or subtracts, or is a sign. -/
def isAdditive : Operator → Bool
  | plus | minus => true
  | _ => false

/-- Whether an operator multiplies or divides. -/
def isMultiplicative : Operator → Bool
  | times | divide => true
  | _ => false

/-- Whether an operator compares. -/
def isRelational : Operator → Bool
  | equal | notEqual | less | lessEqual | greater | greaterEqual => true
  | _ => false

/-- An operator has one role between operands. -/
theorem isAdditive_of_isMultiplicative {o : Operator} (h : o.isMultiplicative = true) :
    o.isAdditive = false := by
  cases o <;> first | rfl | cases h

theorem roles_of_isRelational {o : Operator} (h : o.isRelational = true) :
    o.isAdditive = false ∧ o.isMultiplicative = false := by
  cases o <;> first | exact ⟨rfl, rfl⟩ | cases h

end Operator

theorem Kind.isComparison_operator (o : Operator) :
    (Kind.operator o).isComparison = o.isRelational := by
  cases o <;> rfl

/-! ## Mentions of names -/

/-- What a program does with a name. -/
inductive Mention where
  /-- The variable is read. -/
  | use (x : Bytes)
  /-- The variable is given a value. -/
  | assign (x : Bytes)
  /-- The label is declared. -/
  | label (x : Bytes)
  /-- The label is the target of a jump. -/
  | jump (x : Bytes)
  deriving DecidableEq

namespace Mention

/-- The variables that are known behind a mention. -/
def learn (known : List Bytes) : Mention → List Bytes
  | assign x => if known.contains x then known else known ++ [x]
  | use _ | label _ | jump _ => known

/-- The variables that are known behind some mentions, in the order of their first assignment. -/
def learnAll (known : List Bytes) (ms : List Mention) : List Bytes := ms.foldl learn known

end Mention

/-- The rules of scope for the names a program mentions, in their order: a variable is assigned
before it is used, a label is declared at most once, and a jump has a label to go to, before it or
behind it. -/
structure Scoped (ms : List Mention) : Prop where
  assigned : ∀ before x after, ms = before ++ .use x :: after → .assign x ∈ before
  declaredOnce : ∀ before x after, ms = before ++ .label x :: after → .label x ∉ before
  reached : ∀ x, .jump x ∈ ms → .label x ∈ ms

/-! ## Expressions -/

/-- A first element, and more of them with an operator of the class `p` before each. -/
structure Chain (p : Operator → Bool) (α : Type) where
  first : α
  rest : List ({ o : Operator // p o = true } × α)
  deriving DecidableEq

/-- What a chain amounts to in a list: its first element by `first`, and for each link what the
operator amounts to and then its element by `later`. -/
def Chain.flatten {p : Operator → Bool} {α β : Type} (first later : α → List β)
    (operator : Operator → List β) (c : Chain p α) : List β :=
  first c.first ++ c.rest.flatMap fun link => operator link.1.1 ++ later link.2

/-- A number or a variable. -/
inductive Primary where
  | number (n : Numeral)
  | reference (x : Identifier)
  deriving DecidableEq

/-- A primary with or without a sign. -/
structure Operand where
  sign : Option { o : Operator // o.isAdditive = true }
  primary : Primary
  deriving DecidableEq

/-- Operands that are multiplied and divided. -/
abbrev Term := Chain Operator.isMultiplicative Operand

/-- Terms that are added and subtracted. -/
abbrev Expression := Chain Operator.isAdditive Term

/-- Expressions that are compared, one with the next. -/
structure Condition where
  chain : Chain Operator.isRelational Expression
  compares : chain.rest ≠ []
  deriving DecidableEq

namespace Primary

def lexeme : Primary → Lexeme
  | number n => .ofNumeral n
  | reference x => .ofIdentifier x

def mentions : Primary → List Mention
  | number _ => []
  | reference x => [.use x.text]

end Primary

namespace Operand

def lexemes (u : Operand) : List Lexeme :=
  (u.sign.toList.map fun o => .ofOperator o.1) ++ [u.primary.lexeme]

def mentions (u : Operand) : List Mention := u.primary.mentions

/-- The sign and the primary. Behind a binary plus or minus a space keeps the sign apart. -/
def emissions (afterSign : Bool) (u : Operand) : List Emission :=
  (u.sign.toList.flatMap fun o =>
      (if afterSign then [.code (bytes " ")] else []) ++ [.code o.1.spelling]) ++
    [.code u.primary.lexeme.text]

end Operand

namespace Term

def lexemes (t : Term) : List Lexeme :=
  t.flatten Operand.lexemes Operand.lexemes fun o => [.ofOperator o]

def mentions (t : Term) : List Mention :=
  t.flatten Operand.mentions Operand.mentions fun _ => []

def emissions (afterSign : Bool) (t : Term) : List Emission :=
  t.flatten (Operand.emissions afterSign) (Operand.emissions false) fun o => [.code o.spelling]

end Term

namespace Expression

def lexemes (e : Expression) : List Lexeme :=
  e.flatten Term.lexemes Term.lexemes fun o => [.ofOperator o]

def mentions (e : Expression) : List Mention :=
  e.flatten Term.mentions Term.mentions fun _ => []

def emissions (afterSign : Bool) (e : Expression) : List Emission :=
  e.flatten (Term.emissions afterSign) (Term.emissions true) fun o => [.code o.spelling]

/-- An operand alone. -/
def ofOperand (u : Operand) : Expression := ⟨⟨u, []⟩, []⟩

/-- An operand, an operator that multiplies or divides, and what follows it. -/
def multiply (u : Operand) (o : { o : Operator // o.isMultiplicative = true }) (e : Expression) :
    Expression :=
  ⟨⟨u, (o, e.first.first) :: e.first.rest⟩, e.rest⟩

/-- An operand, an operator that adds or subtracts, and what follows it. -/
def add (u : Operand) (o : { o : Operator // o.isAdditive = true }) (e : Expression) :
    Expression :=
  ⟨⟨u, []⟩, (o, e.first) :: e.rest⟩

/-- Expressions from left to right, operand by operand: an operator continues the term or starts
the next one. -/
theorem induction {motive : Expression → Prop} (operand : ∀ u, motive (ofOperand u))
    (multiply : ∀ u o e, motive e → motive (multiply u o e))
    (add : ∀ u o e, motive e → motive (add u o e)) (e : Expression) : motive e := by
  obtain ⟨⟨u, factors⟩, terms⟩ := e
  -- The terms behind the first, and inside them the factors of the first.
  induction terms generalizing u factors with
  | nil =>
    induction factors generalizing u with
    | nil => exact operand u
    | cons factor factors ih => exact multiply u factor.1 _ (ih factor.2)
  | cons term terms ihterms =>
    induction factors generalizing u with
    | nil => exact add u term.1 _ (ihterms term.2.first term.2.rest)
    | cons factor factors ih => exact multiply u factor.1 _ (ih factor.2)

@[simp] theorem lexemes_ofOperand (u : Operand) : (ofOperand u).lexemes = u.lexemes := by
  simp [ofOperand, lexemes, Term.lexemes, Chain.flatten]

@[simp] theorem lexemes_multiply (u : Operand) (o) (e : Expression) :
    (multiply u o e).lexemes = u.lexemes ++ .ofOperator o.1 :: e.lexemes := by
  simp [multiply, lexemes, Term.lexemes, Chain.flatten]

@[simp] theorem lexemes_add (u : Operand) (o) (e : Expression) :
    (add u o e).lexemes = u.lexemes ++ .ofOperator o.1 :: e.lexemes := by
  simp [add, lexemes, Term.lexemes, Chain.flatten]

/-- An expression holds nothing but numbers, names and operators. -/
theorem forall_mem_lexemes {P : Lexeme → Prop} (hprimary : ∀ x : Primary, P x.lexeme)
    (hoperator : ∀ o, P (.ofOperator o)) (e : Expression) : ∀ l ∈ e.lexemes, P l := by
  have hoperand : ∀ u : Operand, ∀ l ∈ u.lexemes, P l := by
    rintro ⟨sign, x⟩ l hl
    rcases List.mem_append.1 hl with hl | hl
    · obtain ⟨o, -, rfl⟩ := List.mem_map.1 hl
      exact hoperator o.1
    · rw [List.mem_singleton.1 hl]
      exact hprimary x
  induction e using induction with
  | operand u => simpa using hoperand u
  | multiply u o e ih =>
    rw [lexemes_multiply]
    exact List.forall_mem_append.2 ⟨hoperand u, List.forall_mem_cons.2 ⟨hoperator o.1, ih⟩⟩
  | add u o e ih =>
    rw [lexemes_add]
    exact List.forall_mem_append.2 ⟨hoperand u, List.forall_mem_cons.2 ⟨hoperator o.1, ih⟩⟩

@[simp] theorem mentions_ofOperand (u : Operand) : (ofOperand u).mentions = u.mentions := by
  simp [ofOperand, mentions, Term.mentions, Chain.flatten]

@[simp] theorem mentions_multiply (u : Operand) (o) (e : Expression) :
    (multiply u o e).mentions = u.mentions ++ e.mentions := by
  simp [multiply, mentions, Term.mentions, Chain.flatten]

@[simp] theorem mentions_add (u : Operand) (o) (e : Expression) :
    (add u o e).mentions = u.mentions ++ e.mentions := by
  simp [add, mentions, Term.mentions, Chain.flatten]

variable (afterSign : Bool)

@[simp] theorem emissions_ofOperand (u : Operand) :
    (ofOperand u).emissions afterSign = u.emissions afterSign := by
  simp [ofOperand, emissions, Term.emissions, Chain.flatten]

@[simp] theorem emissions_multiply (u : Operand) (o) (e : Expression) :
    (multiply u o e).emissions afterSign =
      u.emissions afterSign ++ .code o.1.spelling :: e.emissions false := by
  simp [multiply, emissions, Term.emissions, Chain.flatten]

@[simp] theorem emissions_add (u : Operand) (o) (e : Expression) :
    (add u o e).emissions afterSign =
      u.emissions afterSign ++ .code o.1.spelling :: e.emissions true := by
  simp [add, emissions, Term.emissions, Chain.flatten]

end Expression

namespace Condition

def lexemes (c : Condition) : List Lexeme :=
  c.chain.flatten Expression.lexemes Expression.lexemes fun o => [.ofOperator o]

def mentions (c : Condition) : List Mention :=
  c.chain.flatten Expression.mentions Expression.mentions fun _ => []

def emissions (c : Condition) : List Emission :=
  c.chain.flatten (Expression.emissions false) (Expression.emissions false) fun o =>
    [.code o.spelling]

/-- So does a condition. -/
theorem forall_mem_lexemes {P : Lexeme → Prop} (hprimary : ∀ x : Primary, P x.lexeme)
    (hoperator : ∀ o, P (.ofOperator o)) (c : Condition) : ∀ l ∈ c.lexemes, P l := by
  refine List.forall_mem_append.2
    ⟨c.chain.first.forall_mem_lexemes hprimary hoperator, fun l hl => ?_⟩
  obtain ⟨link, -, hl⟩ := List.mem_flatMap.1 hl
  rcases List.mem_cons.1 hl with rfl | hl
  · exact hoperator link.1.1
  · exact link.2.forall_mem_lexemes hprimary hoperator l hl

end Condition

/-! ## Statements -/

/-- A statement that holds no other statement, without the end of its line. -/
inductive Simple where
  | printText (newline : Bool) (text : Literal)
  | printValue (newline : Bool) (value : Expression)
  | label (x : Identifier)
  | jump (x : Identifier)
  | assignment (x : Identifier) (value : Expression)
  | input (x : Identifier)
  deriving DecidableEq

/-- Statements in a row. Each ends with its line and `blank` empty ones; so does the line that
opens a block. A block stands in the row beside the rest of it, so one type is enough. -/
inductive Statements where
  | nil
  | simple (first : Simple) (blank : Nat) (rest : Statements)
  | block (block : Block) (condition : Condition) (blank : Nat) (body : Statements)
    (blankBehind : Nat) (rest : Statements)
  deriving DecidableEq

/-- A program: empty lines, and statements up to the end of the input. -/
structure Program where
  blank : Nat
  body : Statements
  deriving DecidableEq

namespace Block

/-- The word that a block starts with. -/
def firstWord : Block → Keyword
  | conditional => .IF
  | loop => .WHILE

/-- The word behind the condition of a block. -/
def thenWord : Block → Keyword
  | conditional => .THEN
  | loop => .REPEAT

/-- The word that a block ends with. -/
def lastWord : Block → Keyword
  | conditional => .ENDIF
  | loop => .ENDWHILE

/-- The code in front of the condition of a block. -/
def lead : Block → Bytes
  | conditional => bytes "if ("
  | loop => bytes "while ("

end Block

namespace Simple

/-- The word that prints; `newline` if it ends the printed line. -/
def printWord (newline : Bool) : Keyword := if newline then .PRINTLN else .PRINT

def lexemes : Simple → List Lexeme
  | printText newline text => [.ofKeyword (printWord newline), .ofLiteral text]
  | printValue newline value => .ofKeyword (printWord newline) :: value.lexemes
  | label x => [.ofKeyword .LABEL, .ofIdentifier x]
  | jump x => [.ofKeyword .GOTO, .ofIdentifier x]
  | assignment x value =>
    .ofKeyword .LET :: .ofIdentifier x :: .ofOperator .assign :: value.lexemes
  | input x => [.ofKeyword .INPUT, .ofIdentifier x]

def mentions : Simple → List Mention
  | printText _ _ => []
  | printValue _ value => value.mentions
  | label x => [.label x.text]
  | jump x => [.jump x.text]
  | assignment x value => .assign x.text :: value.mentions
  | input x => [.assign x.text]

/-- The declaration of a variable at its first assignment. -/
def declaration (known : List Bytes) (x : Bytes) : List Emission :=
  if known.contains x then [] else [.header (bytes "float " ++ x ++ bytes ";")]

/-- What ends the printed line. -/
def ending (newline : Bool) : Bytes := if newline then bytes "\\n" else []

def emissions (known : List Bytes) : Simple → List Emission
  | printText newline text =>
    [.line (bytes "printf(\"" ++ text.text ++ ending newline ++ bytes "\");")]
  | printValue newline value =>
    .code (bytes "printf(\"%.2f" ++ ending newline ++ bytes "\", (float)(") ::
      value.emissions false ++ [.line (bytes "));")]
  | label x => [.line (x.text ++ bytes ":;")]
  | jump x => [.line (bytes "goto " ++ x.text ++ bytes ";")]
  | assignment x value =>
    declaration known x.text ++ .code (x.text ++ bytes " = ") :: value.emissions false ++
      [.line (bytes ";")]
  | input x =>
    declaration known x.text ++
      [.line (bytes "if (0 == scanf(\"%f\", &" ++ x.text ++ bytes ")) \x7b"),
       .line (x.text ++ bytes " = 0;"), .line (bytes "scanf(\"%*s\");"), .line (bytes "\x7d")]

end Simple

namespace Statements

def lexemes : Statements → List Lexeme
  | nil => []
  | simple first blank rest => first.lexemes ++ Lexeme.lineEnd blank ++ rest.lexemes
  | block b condition blank body blankBehind rest =>
    .ofKeyword b.firstWord :: condition.lexemes ++
      .ofKeyword b.thenWord :: Lexeme.lineEnd blank ++ body.lexemes ++
      .ofKeyword b.lastWord :: Lexeme.lineEnd blankBehind ++ rest.lexemes

def mentions : Statements → List Mention
  | nil => []
  | simple first _ rest => first.mentions ++ rest.mentions
  | block _ condition _ body _ rest => condition.mentions ++ body.mentions ++ rest.mentions

/-- How many blocks are open at once where the most are. -/
def depth : Statements → Nat
  | nil => 0
  | simple _ _ rest => rest.depth
  | block _ _ _ body _ rest => max (body.depth + 1) rest.depth

/-- The code of statements, where the variables `known` have been declared. -/
def emissions (known : List Bytes) : Statements → List Emission
  | nil => []
  | simple first _ rest =>
    first.emissions known ++ rest.emissions (Mention.learnAll known first.mentions)
  | block b condition _ body _ rest =>
    .code b.lead :: condition.emissions ++ .line (bytes ") \x7b") :: body.emissions known ++
      .line (bytes "\x7d") :: rest.emissions (Mention.learnAll known body.mentions)

end Statements

namespace Program

def lexemes (p : Program) : List Lexeme :=
  List.replicate p.blank .newline ++ p.body.lexemes ++ [.eof]

/-- The code of a program: the lines in front, the statements, and the lines behind. -/
def emissions (p : Program) : List Emission :=
  [.header (bytes "#include <stdio.h>"), .header (bytes "int main(void) \x7b")] ++
    p.body.emissions [] ++ [.line (bytes "return 0;"), .line (bytes "\x7d")]

/-- The text of that code: every line of the header, wherever it is emitted, and then the rest in
its order. -/
def text (p : Program) : Bytes :=
  (p.emissions.flatMap fun
      | .header piece => piece ++ bytes "\n"
      | .code _ | .line _ => []) ++
    p.emissions.flatMap fun
      | .header _ => []
      | .code piece => piece
      | .line piece => piece ++ bytes "\n"

end Program

end Teeny
