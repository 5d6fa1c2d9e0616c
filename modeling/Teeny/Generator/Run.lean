import Teeny.Generator.Step
import Teeny.Token.Scan

/-!
# Running the code generator on a source

Tokens are read from the source as they are needed, one ahead of the one that is acted on: a token
is acted on only after the token behind it has been read without a fault. A lexical fault thus stops
a run one step before the faulty place, and the code emitted until then is kept.

The run ends because each token but the last takes at least one glyph (`Cursor.next_shorter`) and
no step goes on behind the end of the input (`State.step_eof`).
-/

namespace Teeny

namespace State

open Move

theorem proceed_ne_of_eof {k : Kind} {t : Token} {s s' : State} (hk : k ≠ .eof)
    (ht : t.kind = .eof) : (expect k t s).progress ≠ .more s' := by
  have : t.kind ≠ k := fun h => hk (h ▸ ht)
  simp [expect, this, refuse]

theorem item_eof {t : Token} {s s' : State} (ht : t.kind = .eof) :
    (s.item t).progress ≠ .more s' := by
  unfold item
  split <;> simp [ht, refuse]

theorem itemLine_eof {t : Token} {s s' : State} (ht : t.kind = .eof) :
    (s.itemLine t).progress ≠ .more s' := by
  simpa [itemLine, ht] using item_eof ht

theorem operand_eof {p : Purpose} {afterSign : Bool} {t : Token} {s s' : State}
    (ht : t.kind = .eof) : (s.operand p afterSign t).progress ≠ .more s' := by
  simp [operand, primary, ht, Kind.isAdditive, refuse]

theorem expressionEnd_eof {p : Purpose} {t : Token} {s s' : State} (ht : t.kind = .eof) :
    (s.expressionEnd t p).progress ≠ .more s' := by
  cases p with
  | print => exact proceed_ne_of_eof (by decide) ht
  | assignment => exact proceed_ne_of_eof (by decide) ht
  | condition block compared =>
    cases compared <;> simp [expressionEnd, ht, Kind.isComparison, expect, refuse]

theorem named_eof {name : Bytes} {position : Position} {use : Naming} {t : Token} {s s' : State}
    (ht : t.kind = .eof) : (s.named name position t use).progress ≠ .more s' := by
  cases use <;> exact proceed_ne_of_eof (by decide) ht

theorem blockBody_eof {bound : Option Nat} {block : Block} {t : Token} {s s' : State}
    (ht : t.kind = .eof) : (s.blockBody bound block t).progress ≠ .more s' := by
  unfold blockBody
  rw [if_neg (by simp [ht])]
  dsimp only [after]
  cases bound with
  | none => exact item_eof ht
  | some n =>
    dsimp only
    split
    · simp [refuse]
    · exact item_eof ht

/-- No step goes on behind the end of the input. -/
theorem step_eof {bound : Option Nat} {t : Token} {s s' : State} (ht : t.kind = .eof) :
    (s.step bound t).progress ≠ .more s' := by
  unfold step
  split
  · exact itemLine_eof ht
  · exact itemLine_eof ht
  · simpa [print, ht, after] using operand_eof ht
  · exact operand_eof ht
  · simp [name, ht, refuse]
  · exact named_eof ht
  · exact operand_eof ht
  · simp [primary, ht, refuse]
  · simpa [operator, ht, Kind.isAdditive, Kind.isMultiplicative] using expressionEnd_eof ht
  · exact proceed_ne_of_eof (by decide) ht
  · exact blockBody_eof ht
  · exact proceed_ne_of_eof (by decide) ht
  · exact proceed_ne_of_eof (by decide) ht

end State

/-- What came of a run. -/
structure Run where
  emissions : List Emission
  /-- Why the program is refused; nothing if it is accepted. -/
  failure : Option Failure
  /-- How many tokens were read, the end of the input counted each time. -/
  reads : Nat

namespace Run

/-- How far a run still has to go, with the token `t` read and the cursor `c` behind it. -/
def remaining (t : Token) (c : Cursor) : Nat :=
  c.rest.length + if t.kind = .eof then 0 else 1

theorem remaining_next_lt {t ahead : Token} {c d : Cursor} (ht : t.kind ≠ .eof)
    (h : c.next = .ok (ahead, d)) : remaining ahead d < remaining t c := by
  unfold remaining
  rw [if_neg ht]
  split
  · have := Cursor.next_le h
    omega
  · rename_i ha
    have := Cursor.next_shorter h ha
    omega

/-- Reads the token behind `t`, acts on `t`, and goes on with the token read. -/
def feed (bound : Option Nat) (s : State) (t : Token) (c : Cursor) : Run :=
  match h : c.next with
  | .error d => ⟨[], some (.single d), 1⟩
  | .ok (ahead, d) =>
    match hp : (s.step bound t).progress with
    | .refused d => ⟨(s.step bound t).emissions, some (.single d), 1⟩
    | .finished s' => ⟨(s.step bound t).emissions, s'.verdict, 1⟩
    | .more s' =>
      have := remaining_next_lt (fun ht => State.step_eof ht hp) h
      let later := feed bound s' ahead d
      ⟨(s.step bound t).emissions ++ later.emissions, later.failure, later.reads + 1⟩
termination_by remaining t c

/-- Runs the generator on a source. -/
def ofSource (bound : Option Nat) (file source : Bytes) : Run :=
  match (Cursor.ofSource file source).next with
  | .error d => ⟨[], some (.single d), 1⟩
  | .ok (t, c) =>
    let later := feed bound .start t c
    { later with reads := later.reads + 1 }

end Run

end Teeny
