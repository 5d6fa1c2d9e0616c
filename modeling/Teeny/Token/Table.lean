import Teeny.Text.Column
import Teeny.Token.Basic

/-!
# The token table

Tokens are listed one to a line, in three columns: position, kind and text. The text stands in
double quotes, with escapes for the quote, the backslash, newline, tab and carriage return only.
Two heading lines come first. The table is made of whole lines, which are delivered one by one.
-/

namespace Teeny.TokenTable

/-- One glyph of the text column. -/
def literalGlyph (g : Glyph) : Bytes :=
  match g.shown with
  | '\n' => bytes "\\n"
  | '\t' => bytes "\\t"
  | '\r' => bytes "\\r"
  | '\\' => bytes "\\\\"
  | '"' => bytes "\\\""
  | c => String.utf8EncodeChar c

/-- The text column of a token. -/
def literal (text : Bytes) : Bytes :=
  bytes "\"" ++ (Glyph.decode text).flatMap literalGlyph ++ bytes "\""

/-- A line of the table; the last column is not filled up. -/
def row (position kind literal : Bytes) : Bytes :=
  Bytes.line (Column.cell 20 position ++ bytes " " ++ Column.cell 12 kind ++ bytes " " ++ literal)

/-- The two heading lines. -/
def heading : List Bytes :=
  [row (bytes "POSITION") (bytes "TOKEN") (bytes "LITERAL"),
   row (List.replicate 20 45) (List.replicate 12 45) (List.replicate 20 45)]

/-- The line of a token. -/
def tokenRow (t : Token) : Bytes := row t.position.text t.kind.title (literal t.text)

/-- The lines of the table. -/
def lines (tokens : List Token) : List Bytes := heading ++ tokens.map tokenRow

end Teeny.TokenTable
