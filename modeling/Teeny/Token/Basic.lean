import Teeny.Position
import Teeny.Text.Quoted
import Teeny.Token.Kind

/-!
# Tokens

A lexeme is a kind with the text it was read from, without the quotes of a string. A token is a
lexeme at a position. Messages describe a token by its lexeme alone.
-/

namespace Teeny

/-- A token without its position. -/
structure Lexeme where
  kind : Kind
  text : Bytes
  deriving DecidableEq

/-- A token of a source. -/
structure Token extends Lexeme where
  position : Position
  deriving DecidableEq

/-- A lexeme in words: its kind, and its text where the kind does not determine it. -/
def Lexeme.description (l : Lexeme) : Bytes :=
  match l.kind with
  | .name | .number | .string => l.kind.title ++ bytes " " ++ Quoted.text l.text
  | _ => l.kind.title

end Teeny
