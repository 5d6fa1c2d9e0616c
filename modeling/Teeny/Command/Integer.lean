import Teeny.Text.Bytes

/-!
# Integers on the command line

An integer is an optional sign and digits. The digits are decimal, or binary, octal or hexadecimal
behind `0b`, `0o` or `0x` in either case, or octal behind a plain zero. Single underscores may
divide the digits and may follow one of the three marks. The value has to fit in 64 bits with a
sign. Digits are read from the left: where the number read so far exceeds 64 bits, what follows it
is not looked at any more.
-/

namespace Teeny.Integer

/-- Why a text is no integer. -/
inductive Fault where
  | malformed
  | outOfRange
  deriving DecidableEq

namespace Fault

/-- The reason in words. -/
def message : Fault → Bytes
  | malformed => bytes "parse error"
  | outOfRange => bytes "value out of range"

end Fault

/-- The byte between digits. -/
def underscore : UInt8 := 95

/-- The smallest number that needs more than 64 bits. -/
def beyondWord : Nat := 0x10000000000000000

/-- The smallest number that needs more than 64 bits together with a sign. -/
def beyondInteger : Nat := 0x8000000000000000

/-- The value of a digit or letter, letters counting from ten in either case. -/
def digit? (b : UInt8) : Option Nat :=
  if 48 ≤ b ∧ b ≤ 57 then some (b - 48).toNat
  else if 97 ≤ b ∧ b ≤ 122 then some (b - 87).toNat
  else if 65 ≤ b ∧ b ≤ 90 then some (b - 55).toNat
  else none

/-- The base that a letter behind a zero stands for. -/
def base? (b : UInt8) : Option Nat :=
  if b = 98 ∨ b = 66 then some 2
  else if b = 111 ∨ b = 79 then some 8
  else if b = 120 ∨ b = 88 then some 16
  else none

/-- The value of digits in a base, going on from `n` and passing over underscores. -/
def value (base : Nat) : Nat → Bytes → Except Fault Nat
  | n, [] => .ok n
  | n, b :: rest =>
    if b = underscore then value base n rest
    else
      match digit? b with
      | none => .error .malformed
      | some d =>
        if d ≥ base then .error .malformed
        else if n * base + d ≥ beyondWord then .error .outOfRange
        else value base (n * base + d) rest

/-- Whether every underscore stands between two digits; `before` if a digit, or a mark that counts
as one, stands before the text. -/
def isSeparated (before : Bool) : Bytes → Bool
  | [] => true
  | b :: rest =>
    if b = underscore then before && !rest.isEmpty && isSeparated false rest
    else isSeparated true rest

/-- Digits in a base, with their underscores in place. -/
def digits (base : Nat) (before : Bool) (text : Bytes) : Except Fault Nat := do
  let n ← value base 0 text
  if isSeparated before text then return n else throw .malformed

/-- A number without a sign. -/
def magnitude (text : Bytes) : Except Fault Nat :=
  match text with
  | [] => .error .malformed
  | 48 :: mark :: first :: rest =>
    match base? mark with
    | some base => digits base true (first :: rest)
    | none => digits 8 false text
  | 48 :: _ => digits 8 false text
  | _ => digits 10 false text

/-- An integer of 64 bits. -/
def parse (text : Bytes) : Except Fault Int :=
  match text with
  | 45 :: rest => do
    let n ← magnitude rest
    if n > beyondInteger then throw .outOfRange else return -n
  | _ => do
    let n ← magnitude (if text.head? = some 43 then text.tail else text)
    if n ≥ beyondInteger then throw .outOfRange else return n

end Teeny.Integer
