import Teeny.Text.Glyph

/-!
# Positions

A position names a file, a line and a column. Lines end with a line feed and every glyph takes one
column; both numbers are 32-bit words that count from one and start over after the last value.
-/

namespace Teeny

/-- A place in a source file. -/
structure Position where
  file : Bytes
  line : UInt32
  column : UInt32
  deriving DecidableEq

namespace Position

/-- The first place of a file. -/
def start (file : Bytes) : Position := ⟨file, 1, 1⟩

/-- The place behind the glyph that stands here. -/
def after (p : Position) : Glyph → Position
  | .char '\n' => { p with line := p.line + 1, column := 1 }
  | _ => { p with column := p.column + 1 }

/-- The place behind a sequence of glyphs that starts here. -/
def afterAll (p : Position) (glyphs : List Glyph) : Position := glyphs.foldl after p

/-- Whether this is a place in a file: lines count from one. -/
def isValid (p : Position) : Bool := p.line > 0

/-- The place in words, `file:line:column`; without a file, `line:column`. -/
def text (p : Position) : Bytes :=
  let place := Bytes.decimal p.line.toNat ++ bytes ":" ++ Bytes.decimal p.column.toNat
  if p.file = [] then place else p.file ++ bytes ":" ++ place

@[simp] theorem afterAll_nil (p : Position) : p.afterAll [] = p := rfl

@[simp] theorem afterAll_cons (p : Position) (g : Glyph) (gs : List Glyph) :
    p.afterAll (g :: gs) = (p.after g).afterAll gs := rfl

@[simp] theorem afterAll_append (p : Position) (gs hs : List Glyph) :
    p.afterAll (gs ++ hs) = (p.afterAll gs).afterAll hs := by
  simp [afterAll]

@[simp] theorem file_after (p : Position) (g : Glyph) : (p.after g).file = p.file := by
  unfold after
  split <;> rfl

/-- A position never leaves its file. -/
@[simp] theorem file_afterAll (p : Position) (gs : List Glyph) :
    (p.afterAll gs).file = p.file := by
  induction gs generalizing p with
  | nil => rfl
  | cons g gs ih => simp [ih]

end Position

end Teeny
