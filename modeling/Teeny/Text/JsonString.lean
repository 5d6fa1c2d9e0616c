import Teeny.Text.Glyph

/-!
# JSON strings

A text as a JSON string that is safe inside a web page: the quote and the backslash have their
short escapes, line feed, carriage return and tab theirs, and every other character below the
space, the three characters `<`, `>` and `&`, and the separators U+2028 and U+2029 are written by
their codes. All other characters stand as they are. A stray byte is written as the code of the
character that is shown for it.
-/

namespace Teeny.JsonString

/-- A character written by its four-digit code. -/
def code (c : Char) : Bytes := bytes "\\u" ++ Bytes.hex 4 c.toNat

/-- Whether a character is written by its code although it is no control character. -/
def isReserved (c : Char) : Bool :=
  c = '<' || c = '>' || c = '&' || c.toNat = 0x2028 || c.toNat = 0x2029

/-- One character of a JSON string. -/
def character (c : Char) : Bytes :=
  if c = '"' then bytes "\\\""
  else if c = '\\' then bytes "\\\\"
  else if c = '\n' then bytes "\\n"
  else if c = '\r' then bytes "\\r"
  else if c = '\t' then bytes "\\t"
  else if c.toNat < 0x20 || isReserved c then code c
  else String.utf8EncodeChar c

/-- One glyph of a JSON string. -/
def glyph : Glyph → Bytes
  | .char c => character c
  | .stray b => code (Glyph.shown (.stray b))

/-- A text as a JSON string, quotes included. -/
def text (t : Bytes) : Bytes :=
  bytes "\"" ++ (Glyph.decode t).flatMap glyph ++ bytes "\""

end Teeny.JsonString
