import Teeny.Text.JsonString
import Teeny.Token.Basic

/-!
# Tokens as JSON

Tokens are written as an array of objects with the members `pos`, `kind` and `text`, one member to
a line, two spaces for each level, and a newline at the end.
-/

namespace Teeny.TokenJson

/-- A member of an object, on a line of its own. -/
def member (key : String) (value : Bytes) : Bytes :=
  bytes "    \"" ++ bytes key ++ bytes "\": " ++ JsonString.text value

/-- A token as an object. -/
def object (t : Token) : Bytes :=
  bytes "  \x7b\n" ++
    (bytes ",\n").intercalate
      [member "pos" t.position.text, member "kind" t.kind.title, member "text" t.text] ++
    bytes "\n  \x7d"

/-- The whole document. -/
def document : List Token → Bytes
  | [] => bytes "[]\n"
  | tokens => bytes "[\n" ++ (bytes ",\n").intercalate (tokens.map object) ++ bytes "\n]\n"

end Teeny.TokenJson
