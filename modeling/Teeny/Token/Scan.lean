import Teeny.Diagnostic

/-!
# Scanning

A cursor stands in a source: the glyphs ahead of it and the position of the first of them.
`Cursor.next` reads one token. It skips spaces, tabs, carriage returns and a comment, and takes
the longest token that starts there; at the end of the input it gives the same end token however
often it is asked. `Cursor.scan` reads all tokens up to the end or the first fault.

A source is read as if one more newline followed it, so its last line always ends
(`Cursor.ofSource`). `next_shorter` is the fact that makes reading end: every token but the last
takes at least one glyph.
-/

namespace Teeny

/-- A place in a source together with what lies ahead of it. -/
structure Cursor where
  position : Position
  rest : List Glyph

/-- What a scan found: tokens, and the fault that stopped it. -/
structure Scan where
  tokens : List Token
  fault : Option Diagnostic

namespace Glyph

/-- Whether a glyph separates tokens without being one. -/
def isBlank (g : Glyph) : Bool := g = .char ' ' || g = .char '\t' || g = .char '\r'

/-- Whether a glyph is a decimal digit of ASCII. -/
def isDigit : Glyph → Bool
  | .char c => c.isDigit
  | .stray _ => false

/-- Whether a glyph is a letter of ASCII. -/
def isLetter : Glyph → Bool
  | .char c => c.isAlpha
  | .stray _ => false

/-- Whether a glyph continues a word. -/
def isWordPart (g : Glyph) : Bool := g.isLetter || g.isDigit

/-- Whether a character may stand in a string: it stands in the generated code as it is, where
the quote, the backslash, the percent sign and control characters would read as something else. -/
def isPlain (c : Char) : Bool :=
  c ≠ '"' && c ≠ '\\' && c ≠ '%' && 0x20 ≤ c.toNat && c.toNat ≠ 0x7F

/-- Whether a glyph may stand in a string. -/
def isStringPart : Glyph → Bool
  | .char c => isPlain c
  | .stray _ => false

/-- What is wrong with a glyph that may not stand in a string. -/
def stringFault : Glyph → Fault
  | .char '\n' => .stringPastLine
  | .char c => .illegalInString c
  | .stray _ => .malformedString

end Glyph

namespace Cursor

/-- The start of a source. -/
def ofSource (file source : Bytes) : Cursor :=
  ⟨.start file, Glyph.decode (Bytes.line source)⟩

/-- The cursor behind the next `n` glyphs. -/
def advance (c : Cursor) (n : Nat) : Cursor :=
  ⟨c.position.afterAll (c.rest.take n), c.rest.drop n⟩

/-- The cursor behind the glyphs that satisfy `p`. -/
def skipWhile (c : Cursor) (p : Glyph → Bool) : Cursor := c.advance (c.rest.takeWhile p).length

/-- The cursor behind blanks and a comment. A comment ends before its newline. -/
def skipLayout (c : Cursor) : Cursor :=
  let c := c.skipWhile Glyph.isBlank
  if c.rest.head? = some (.char '#') then c.skipWhile (· ≠ .char '\n') else c

/-- The next `n` glyphs as a token. -/
def take (c : Cursor) (kind : Kind) (n : Nat) : Token × Cursor :=
  (⟨⟨kind, Glyph.encode (c.rest.take n)⟩, c.position⟩, c.advance n)

/-- A fault `n` glyphs ahead. -/
def fail {α : Type} (c : Cursor) (n : Nat) (fault : Fault) : Except Diagnostic α :=
  .error ⟨(c.advance n).position, fault⟩

/-- A word: letters and digits. -/
def word (c : Cursor) : Token × Cursor :=
  let run := c.rest.takeWhile Glyph.isWordPart
  c.take (.ofWord (Glyph.encode run)) run.length

/-- A number: digits, or digits on both sides of a point. -/
def number (c : Cursor) : Except Diagnostic (Token × Cursor) :=
  let whole := (c.rest.takeWhile Glyph.isDigit).length
  match c.rest.drop whole with
  | .char '.' :: tail =>
    let fraction := (tail.takeWhile Glyph.isDigit).length
    if fraction = 0 then c.fail (whole + 1) .missingFraction
    else .ok (c.take .number (whole + 1 + fraction))
  | _ => .ok (c.take .number whole)

/-- A string: everything up to the closing quote. The text of the token leaves the quotes out. -/
def string (c : Cursor) : Except Diagnostic (Token × Cursor) :=
  let body := c.rest.tail.takeWhile Glyph.isStringPart
  match c.rest.tail.drop body.length with
  | [] => c.fail 0 .stringPastEnd
  | g :: _ =>
    if g = .char '"' then
      .ok (⟨⟨.string, Glyph.encode body⟩, c.position⟩, c.advance (body.length + 2))
    else c.fail (body.length + 1) g.stringFault

/-- The operator at the head of `rest`, or what is wrong with its first glyph `g`. -/
def operator? (g : Glyph) (rest : List Glyph) : Except Fault Operator :=
  let doubled := rest.head? = some (.char '=')
  match g with
  | .char '+' => .ok .plus
  | .char '-' => .ok .minus
  | .char '*' => .ok .times
  | .char '/' => .ok .divide
  | .char '=' => .ok (if doubled then .equal else .assign)
  | .char '<' => .ok (if doubled then .lessEqual else .less)
  | .char '>' => .ok (if doubled then .greaterEqual else .greater)
  | .char '!' => if doubled then .ok .notEqual else .error .bareExclamation
  | _ => .error (.unexpectedCharacter g)

/-- The token at the cursor, where no layout stands. -/
def lexeme (c : Cursor) : Except Diagnostic (Token × Cursor) :=
  match c.rest with
  | [] => .ok (c.take .eof 0)
  | g :: rest =>
    if g = .char '\n' then .ok (c.take .newline 1)
    else if g = .char '"' then c.string
    else if g.isDigit then c.number
    else if g.isLetter then .ok c.word
    else
      match operator? g rest with
      | .ok o => .ok (c.take (.operator o) o.spelling.length)
      | .error fault => c.fail 0 fault

/-- The next token and the cursor behind it. -/
def next (c : Cursor) : Except Diagnostic (Token × Cursor) := c.skipLayout.lexeme

theorem length_advance (c : Cursor) (n : Nat) :
    (c.advance n).rest.length = c.rest.length - n := by
  simp [advance]

theorem length_skipLayout_le (c : Cursor) : c.skipLayout.rest.length ≤ c.rest.length := by
  unfold skipLayout skipWhile
  dsimp only
  split <;> simp only [length_advance] <;> omega

theorem length_takeWhile_pos {g : Glyph} {rest : List Glyph} {p : Glyph → Bool} (h : p g = true) :
    0 < ((g :: rest).takeWhile p).length := by
  simp [h]

theorem length_advance_lt {c : Cursor} {n : Nat} (hc : c.rest ≠ []) (hn : 0 < n) :
    (c.advance n).rest.length < c.rest.length := by
  have := List.length_pos_iff.2 hc
  rw [length_advance]
  omega

theorem number_shorter {c d : Cursor} {t : Token} {g : Glyph} {rest : List Glyph}
    (hc : c.rest = g :: rest) (hg : g.isDigit = true) (h : c.number = .ok (t, d)) :
    d.rest.length < c.rest.length := by
  have hne : c.rest ≠ [] := by simp [hc]
  have hpos : 0 < (c.rest.takeWhile Glyph.isDigit).length := by
    rw [hc]
    exact length_takeWhile_pos hg
  unfold number at h
  dsimp only at h
  split at h
  · split at h
    · simp [fail] at h
    · obtain ⟨-, rfl⟩ := Prod.mk.inj (Except.ok.inj h)
      exact length_advance_lt hne (by omega)
  · obtain ⟨-, rfl⟩ := Prod.mk.inj (Except.ok.inj h)
    exact length_advance_lt hne hpos

theorem string_shorter {c d : Cursor} {t : Token} (hc : c.rest ≠ [])
    (h : c.string = .ok (t, d)) : d.rest.length < c.rest.length := by
  unfold string at h
  dsimp only at h
  split at h
  · simp [fail] at h
  · split at h
    · obtain ⟨-, rfl⟩ := Prod.mk.inj (Except.ok.inj h)
      exact length_advance_lt hc (by omega)
    · simp [fail] at h

/-- Where nothing is left, the end of the input is read and the cursor stays. -/
theorem lexeme_nil {c d : Cursor} {t : Token} (hc : c.rest = []) (h : c.lexeme = .ok (t, d)) :
    t.kind = .eof ∧ d.rest = [] := by
  unfold lexeme at h
  simp only [hc] at h
  obtain ⟨rfl, rfl⟩ := Prod.mk.inj (Except.ok.inj h)
  exact ⟨rfl, by simp [advance, hc]⟩

/-- Where something is left, a token takes at least one glyph. -/
theorem lexeme_shorter {c d : Cursor} {t : Token} (hc : c.rest ≠ [])
    (h : c.lexeme = .ok (t, d)) : d.rest.length < c.rest.length := by
  unfold lexeme at h
  split at h
  · contradiction
  · rename_i g rest hrest
    split at h
    · obtain ⟨-, rfl⟩ := Prod.mk.inj (Except.ok.inj h)
      exact length_advance_lt hc (by omega)
    · split at h
      · exact string_shorter hc h
      · split at h
        · exact number_shorter hrest (by assumption) h
        · split at h
          · rename_i hletter
            obtain ⟨-, rfl⟩ := Prod.mk.inj (Except.ok.inj h)
            refine length_advance_lt hc ?_
            rw [hrest]
            exact length_takeWhile_pos (by simp [Glyph.isWordPart, hletter])
          · split at h
            · rename_i o _
              obtain ⟨-, rfl⟩ := Prod.mk.inj (Except.ok.inj h)
              exact length_advance_lt hc (by cases o <;> decide)
            · simp [fail] at h

/-- Reading a token that is not the end of the input brings the end nearer. -/
theorem next_shorter {c d : Cursor} {t : Token} (h : c.next = .ok (t, d))
    (ht : t.kind ≠ .eof) : d.rest.length < c.rest.length := by
  have hne : c.skipLayout.rest ≠ [] := fun hnil => ht (lexeme_nil hnil h).1
  exact Nat.lt_of_lt_of_le (lexeme_shorter hne h) (length_skipLayout_le c)

/-- Reading a token never leads back. -/
theorem next_le {c d : Cursor} {t : Token} (h : c.next = .ok (t, d)) :
    d.rest.length ≤ c.rest.length := by
  by_cases hnil : c.skipLayout.rest = []
  · simp [(lexeme_nil hnil h).2]
  · exact Nat.le_trans (Nat.le_of_lt (lexeme_shorter hnil h)) (length_skipLayout_le c)

/-- All tokens from here to the end of the input, or to the first fault. -/
def scan (c : Cursor) : Scan :=
  match h : c.next with
  | .error d => ⟨[], some d⟩
  | .ok (t, d) =>
    if ht : t.kind = .eof then ⟨[t], none⟩
    else
      have := next_shorter h ht
      let later := d.scan
      ⟨t :: later.tokens, later.fault⟩
termination_by c.rest.length

/-- The next `n` tokens, or those before the first fault. -/
def nextMany : Nat → Cursor → Scan
  | 0, _ => ⟨[], none⟩
  | n + 1, c =>
    match c.next with
    | .error d => ⟨[], some d⟩
    | .ok (t, d) =>
      let later := nextMany n d
      ⟨t :: later.tokens, later.fault⟩

end Cursor

/-- All tokens of a source, or those before its first fault. -/
def scan (file source : Bytes) : Scan := (Cursor.ofSource file source).scan

end Teeny
