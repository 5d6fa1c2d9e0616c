import Teeny.Text.Glyph
import Teeny.Text.Printable

/-!
# Quotations in messages

A message quotes a piece of the source so that it stays on one line and shows unambiguously what
was there. A text stands between double quotes and a single character between single quotes. The
quote in use and the backslash are escaped, printable characters stand as they are, seven control
characters have a letter, and all else is written as a code of two, four or eight digits. A stray
byte in a text is written as its code.
-/

namespace Teeny.Quoted

/-- The letter that stands for a control character after a backslash. -/
def controlLetter? (code : Nat) : Option Char :=
  match code with
  | 7 => some 'a'
  | 8 => some 'b'
  | 9 => some 't'
  | 10 => some 'n'
  | 11 => some 'v'
  | 12 => some 'f'
  | 13 => some 'r'
  | _ => none

/-- A character that is not printable, as an escape. -/
def code (c : Char) : Bytes :=
  match controlLetter? c.toNat with
  | some letter => bytes "\\" ++ String.utf8EncodeChar letter
  | none =>
    if c.toNat < 0x80 then bytes "\\x" ++ Bytes.hex 2 c.toNat
    else if c.toNat < 0x10000 then bytes "\\u" ++ Bytes.hex 4 c.toNat
    else bytes "\\U" ++ Bytes.hex 8 c.toNat

/-- One character inside the given quotes. -/
def character (quote c : Char) : Bytes :=
  if c = quote ∨ c = '\\' then bytes "\\" ++ String.utf8EncodeChar c
  else if Printable.isPrintable c then String.utf8EncodeChar c
  else code c

/-- One glyph inside the given quotes. -/
def glyph (quote : Char) : Glyph → Bytes
  | .char c => character quote c
  | .stray b => bytes "\\x" ++ Bytes.hex 2 b.toNat

/-- A text between double quotes. -/
def text (t : Bytes) : Bytes :=
  bytes "\"" ++ (Glyph.decode t).flatMap (glyph '"') ++ bytes "\""

/-- A character between single quotes. -/
def char (c : Char) : Bytes :=
  bytes "'" ++ character '\'' c ++ bytes "'"

end Teeny.Quoted
