import Teeny.Text.Glyph

/-!
# Columns of a table

A table cell is filled with spaces on the right up to the width of its column. Widths count
glyphs, so a character of several bytes takes one place and so does a stray byte. A cell that is
wider than its column is kept whole.
-/

namespace Teeny.Column

/-- The number of places that a text takes. -/
def width (t : Bytes) : Nat := (Glyph.decode t).length

/-- A cell in a column of `w` places. -/
def cell (w : Nat) (t : Bytes) : Bytes := t ++ List.replicate (w - width t) 32

theorem length_le_cell (w : Nat) (t : Bytes) : t.length ≤ (cell w t).length := by
  simp [cell]

end Teeny.Column
