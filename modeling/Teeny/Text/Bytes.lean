/-!
# Texts as bytes

Sources, file names, messages and generated code are byte strings: a source file may hold bytes
that are no characters at all, and a message quotes what the file holds. `Bytes` is that type.
`bytes` gives the bytes of a fixed text, and the rest are the few operations that every printer
needs: a text as a line, and a number in decimal.
-/

namespace Teeny

/-- A text is the list of its bytes. -/
abbrev Bytes := List UInt8

/-- The bytes of a fixed text, encoded as UTF-8. -/
def bytes (s : String) : Bytes := s.toList.flatMap String.utf8EncodeChar

namespace Bytes

/-- The byte that ends a line. -/
def newline : UInt8 := 10

/-- A text followed by the end of its line. -/
def line (b : Bytes) : Bytes := b ++ [newline]

/-- The decimal digit `d`, for `d` below ten. -/
def digit (d : Nat) : UInt8 := 48 + d.toUInt8

/-- The decimal numeral of `n`, without leading zeros. -/
def decimal (n : Nat) : Bytes :=
  if n < 10 then [digit n] else decimal (n / 10) ++ [digit (n % 10)]
termination_by n

/-- The hexadecimal digit `d`, in lower case, for `d` below sixteen. -/
def hexDigit (d : Nat) : UInt8 := if d < 10 then 48 + d.toUInt8 else 87 + d.toUInt8

/-- The last `width` hexadecimal digits of `n`. -/
def hex : Nat → Nat → Bytes
  | 0, _ => []
  | width + 1, n => hex width (n / 16) ++ [hexDigit (n % 16)]

theorem length_hex (width n : Nat) : (hex width n).length = width := by
  induction width generalizing n with
  | zero => rfl
  | succ width ih => simp [hex, ih]

end Bytes

end Teeny
