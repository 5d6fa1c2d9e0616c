import Teeny.Proofs.Text.Delivery
import Teeny.Proofs.Token.Positions
import Teeny.Proofs.Token.Titles
import Teeny.Token.Table

/-!
# Tokens read back from a table

The columns of the token table have no fixed offsets: a cell that is too wide pushes the next one to
the right, and the name of the file may hold blanks and quotes. But in the table of one file every
row starts with the same name. Behind it stand two numerals, then the name of a kind, which has no
blanks, and then the text, which ends with its second bare quote (`readLiteral_literal`). So a row
is read back from the left, whatever follows (`tokenRow_append_inj`), and with it the table of a
scan (`table_faithful`). The text column never holds a newline, and thus a row is one line.

A receiver with a limit gets whole rows, as many from the top as it has room for
(`delivered_by_rows`).
-/

namespace Teeny

namespace TokenTable

/-! ## The text column -/

/-- The byte that a letter stands for behind a backslash. -/
def escaped? : UInt8 → Option UInt8
  | 110 => some 10
  | 116 => some 9
  | 114 => some 13
  | 92 => some 92
  | 34 => some 34
  | _ => none

/-- Reads a text column from behind its first quote, or, if `escaped`, from behind a backslash: the
text that it shows, and what follows the closing quote. -/
def readBody (escaped : Bool) : Bytes → Option (Bytes × Bytes)
  | [] => none
  | b :: rest =>
    if escaped then
      match escaped? b with
      | some c => (readBody false rest).map fun r => (c :: r.1, r.2)
      | none => none
    else if b = 34 then some ([], rest)
    else if b = 92 then readBody true rest
    else (readBody false rest).map fun r => (b :: r.1, r.2)

/-- Reads a text column: the text that it shows, and what follows. -/
def readLiteral : Bytes → Option (Bytes × Bytes)
  | [] => none
  | b :: rest => if b = 34 then readBody false rest else none

/-- Whether a byte of ASCII is shown by an escape. -/
def isEscaped (b : UInt8) : Bool := b = 10 || b = 9 || b = 13 || b = 92 || b = 34

/-- A glyph is shown by an escape, or by the bytes of its character if that needs none. -/
theorem literalGlyph_cases (g : Glyph) :
    (∃ letter b, escaped? letter = some b ∧ literalGlyph g = [92, letter] ∧
      String.utf8EncodeChar g.shown = [b]) ∨
    literalGlyph g = String.utf8EncodeChar g.shown ∧
      ∀ b ∈ String.utf8EncodeChar g.shown, isEscaped b = false := by
  unfold literalGlyph
  split
  next h => exact .inl ⟨110, 10, rfl, rfl, h ▸ rfl⟩
  next h => exact .inl ⟨116, 9, rfl, rfl, h ▸ rfl⟩
  next h => exact .inl ⟨114, 13, rfl, rfl, h ▸ rfl⟩
  next h => exact .inl ⟨92, 92, rfl, rfl, h ▸ rfl⟩
  next h => exact .inl ⟨34, 34, rfl, rfl, h ▸ rfl⟩
  next hnewline htab hreturn hbackslash hquote =>
    refine .inr ⟨rfl, fun b hb => Bool.eq_false_iff.2 fun hescaped => ?_⟩
    -- an escaped byte is of ASCII and thus the whole character, which is none of the five
    have hshown : ∀ c : Char, b.toNat < 0x80 → b.toNat = c.toNat → g.shown = c :=
      fun c hascii hc => Char.toNat_inj.1 ((Glyph.mem_utf8EncodeChar_ascii hb hascii).trans hc)
    simp only [isEscaped, Bool.or_eq_true, decide_eq_true_eq] at hescaped
    rcases hescaped with (((rfl | rfl) | rfl) | rfl) | rfl
    · exact hnewline (hshown '\n' (by decide) rfl)
    · exact htab (hshown '\t' (by decide) rfl)
    · exact hreturn (hshown '\r' (by decide) rfl)
    · exact hbackslash (hshown '\\' (by decide) rfl)
    · exact hquote (hshown '"' (by decide) rfl)

/-- A text column is one line without tabs and carriage returns. -/
theorem ne_of_mem_literal {text : Bytes} :
    ∀ b ∈ literal text, b ≠ 10 ∧ b ≠ 9 ∧ b ≠ 13 := by
  have hletter : ∀ letter, (escaped? letter).isSome = true →
    letter ≠ 10 ∧ letter ≠ 9 ∧ letter ≠ 13 := Glyph.forall_byte (by decide +kernel)
  have hplain : ∀ b, isEscaped b = false → b ≠ 10 ∧ b ≠ 9 ∧ b ≠ 13 := by
    intro b hb
    refine ⟨?_, ?_, ?_⟩ <;> rintro rfl <;> cases hb
  have hquote : ∀ b ∈ bytes "\"", b ≠ 10 ∧ b ≠ 9 ∧ b ≠ 13 :=
    List.forall_mem_singleton.2 (by decide)
  refine List.forall_mem_append.2 ⟨List.forall_mem_append.2 ⟨hquote, ?_⟩, hquote⟩
  refine List.forall_mem_flatMap.2 fun g _ => ?_
  rcases literalGlyph_cases g with ⟨letter, b, hescape, hglyph, -⟩ | ⟨hglyph, hbytes⟩
  · rw [hglyph]
    refine List.forall_mem_cons.2 ⟨by decide, List.forall_mem_singleton.2 (hletter letter ?_)⟩
    rw [hescape]
    rfl
  · rw [hglyph]
    exact fun b hb => hplain b (hbytes b hb)

theorem readBody_plain {text : Bytes} (h : ∀ b ∈ text, isEscaped b = false) (rest : Bytes) :
    readBody false (text ++ rest) = (readBody false rest).map fun r => (text ++ r.1, r.2) := by
  induction text with
  | nil => simp
  | cons b text ih =>
    obtain ⟨hb, htext⟩ := List.forall_mem_cons.1 h
    have hne : b ≠ 34 ∧ b ≠ 92 := by
      constructor <;> rintro rfl <;> cases hb
    rw [List.cons_append, readBody, if_neg Bool.false_ne_true, if_neg hne.1, if_neg hne.2,
      ih htext, Option.map_map]
    rfl

theorem readBody_literalGlyph (g : Glyph) (rest : Bytes) :
    readBody false (literalGlyph g ++ rest) =
      (readBody false rest).map fun r => (String.utf8EncodeChar g.shown ++ r.1, r.2) := by
  rcases literalGlyph_cases g with ⟨letter, b, hescape, hglyph, hbyte⟩ | ⟨hglyph, hbytes⟩
  · rw [hglyph, hbyte]
    show readBody true (letter :: rest) = _
    rw [readBody, if_pos rfl, hescape]
    rfl
  · rw [hglyph]
    exact readBody_plain hbytes rest

/-- A text is read back from its column, whatever follows. -/
theorem readLiteral_literal (s : String) (rest : Bytes) :
    readLiteral (literal (bytes s) ++ rest) = some (bytes s, rest) := by
  have hchars : ∀ cs : List Char,
      readBody false ((cs.map Glyph.char).flatMap literalGlyph ++ (bytes "\"" ++ rest)) =
        some (cs.flatMap String.utf8EncodeChar, rest) := by
    intro cs
    induction cs with
    | nil => rfl
    | cons c cs ih =>
      rw [List.map_cons, List.flatMap_cons, List.append_assoc, readBody_literalGlyph, ih]
      rfl
  rw [literal, Bytes.decode_bytes, List.append_assoc, List.append_assoc]
  exact hchars s.toList

/-! ## Rows -/

/-- Blanks stop every run of something else. -/
theorem stops_blanks {p : UInt8 → Bool} (hp : p 32 = false) (n : Nat) (rest : Bytes) :
    Stops p (List.replicate n 32 ++ (bytes " " ++ rest)) := by
  cases n with
  | zero => exact stops_cons.2 hp
  | succ n => exact stops_cons.2 hp

/-- The token of a row is read back, whatever follows, if the file is known. -/
theorem tokenRow_append_inj {t t' : Token} {rest rest' : Bytes}
    (hfile : t.position.file = t'.position.file) (ht : Bytes.IsEncoded t.text)
    (ht' : Bytes.IsEncoded t'.text) (h : tokenRow t ++ rest = tokenRow t' ++ rest') :
    t = t' ∧ rest = rest' := by
  obtain ⟨⟨kind, text⟩, position⟩ := t
  obtain ⟨⟨kind', text'⟩, position'⟩ := t'
  obtain ⟨s, rfl⟩ : ∃ s : String, text = bytes s := ht
  obtain ⟨s', rfl⟩ : ∃ s' : String, text' = bytes s' := ht'
  simp only [tokenRow, row, Bytes.line, Column.cell, List.append_assoc] at h
  -- once the position is known, so is the number of blanks behind it; the same for the kind
  obtain ⟨rfl, hkind⟩ := Position.text_append_inj hfile (stops_blanks rfl _ _)
    (stops_blanks rfl _ _) h
  obtain ⟨rfl, hliteral⟩ := Kind.title_append_inj (stops_blanks rfl _ _) (stops_blanks rfl _ _)
    (List.append_cancel_left (List.append_cancel_left hkind))
  have hread := congrArg readLiteral (List.append_cancel_left (List.append_cancel_left hliteral))
  rw [readLiteral_literal, readLiteral_literal, Option.some.injEq, Prod.mk.injEq] at hread
  obtain ⟨htext, hrest⟩ := hread
  exact ⟨by rw [htext], List.append_cancel_left hrest⟩

/-- The rows of tokens of one file are read back. -/
theorem flatMap_tokenRow_inj {file : Bytes} {tokens tokens' : List Token}
    (h : ∀ t ∈ tokens, t.position.file = file ∧ Bytes.IsEncoded t.text)
    (h' : ∀ t ∈ tokens', t.position.file = file ∧ Bytes.IsEncoded t.text)
    (he : tokens.flatMap tokenRow = tokens'.flatMap tokenRow) : tokens = tokens' := by
  have hne : ∀ (t : Token) (rest : Bytes), tokenRow t ++ rest ≠ [] := by
    intro t rest
    exact List.append_ne_nil_of_left_ne_nil (List.append_ne_nil_of_right_ne_nil _ (by decide)) _
  induction tokens generalizing tokens' with
  | nil =>
    cases tokens' with
    | nil => rfl
    | cons t' tokens' => exact absurd he.symm (hne t' _)
  | cons t tokens ih =>
    cases tokens' with
    | nil => exact absurd he (hne t _)
    | cons t' tokens' =>
      obtain ⟨ht, htokens⟩ := List.forall_mem_cons.1 h
      obtain ⟨ht', htokens'⟩ := List.forall_mem_cons.1 h'
      obtain ⟨rfl, hrest⟩ := tokenRow_append_inj (ht.1.trans ht'.1.symm) ht.2 ht'.2 he
      rw [ih htokens htokens' hrest]

/-- What a row says, without the end of its line. -/
def rowText (t : Token) : Bytes :=
  Column.cell 20 t.position.text ++ bytes " " ++ Column.cell 12 t.kind.title ++ bytes " " ++
    literal t.text

theorem newline_notMem_rowText {t : Token} (h : Bytes.newline ∉ t.position.file) :
    Bytes.newline ∉ rowText t := by
  have hcell : ∀ {w : Nat} {text : Bytes}, Bytes.newline ∉ text →
      Bytes.newline ∉ Column.cell w text := by
    intro w text htext hmem
    rcases List.mem_append.1 hmem with hmem | hmem
    · exact htext hmem
    · cases List.eq_of_mem_replicate hmem
  have htitle : Bytes.newline ∉ t.kind.title := fun hmem => by
    cases Kind.isTitlePart_of_mem_title _ _ hmem
  have hblank : Bytes.newline ∉ bytes " " := by decide
  simp only [rowText, List.mem_append]
  rintro ((((hmem | hmem) | hmem) | hmem) | hmem)
  · exact hcell (Position.newline_notMem_text h) hmem
  · exact hblank hmem
  · exact hcell htitle hmem
  · exact hblank hmem
  · exact (ne_of_mem_literal _ hmem).1 rfl

/-! ## The table of a scan -/

theorem received_lines (tokens : List Token) :
    (Delivery.offer none (lines tokens)).received =
      heading.flatten ++ tokens.flatMap tokenRow := by
  rw [Delivery.offer_none, lines, List.flatten_append, List.flatMap_def]

/-- The tokens of a scan are of one file, and their texts are encoded. -/
theorem of_mem_scan {file source : Bytes} :
    ∀ t ∈ (scan file source).tokens, t.position.file = file ∧ Bytes.IsEncoded t.text := by
  intro t ht
  have hwell := Cursor.isWellFormed_of_mem_scan (.ofSource file source) t ht
  exact ⟨file_of_mem_scan ht, (Lexeme.hasForm_iff.2 hwell).isEncoded⟩

/-- The table is cut at its newlines into its rows, the two of the heading first. -/
theorem exists_rows {file : Bytes} {tokens : List Token} (hfile : Bytes.newline ∉ file)
    (h : ∀ t ∈ tokens, t.position.file = file) :
    ∃ rows, (Delivery.offer none (lines tokens)).received.splitOn Bytes.newline = rows ++ [[]] ∧
      rows.length = tokens.length + 2 := by
  obtain ⟨headings, hheadings, hlength, hheading⟩ : ∃ headings : List Bytes,
      heading.flatten = headings.flatMap Bytes.line ∧ headings.length = 2 ∧
        ∀ text ∈ headings, Bytes.newline ∉ text :=
    ⟨heading.map List.dropLast, by decide +kernel, rfl,
      List.forall_mem_cons.2 ⟨by decide +kernel, List.forall_mem_singleton.2 (by decide +kernel)⟩⟩
  have hrows : tokens.flatMap tokenRow = (tokens.map rowText).flatMap Bytes.line := by
    rw [List.flatMap_map]
    rfl
  have htokens : ∀ text ∈ tokens.map rowText, Bytes.newline ∉ text := by
    intro text htext
    obtain ⟨t, ht, rfl⟩ := List.mem_map.1 htext
    exact newline_notMem_rowText (h t ht ▸ hfile)
  refine ⟨headings ++ tokens.map rowText, ?_, ?_⟩
  · rw [received_lines, hheadings, hrows, ← List.flatMap_append]
    exact Bytes.splitOn_flatMap_line (List.forall_mem_append.2 ⟨hheading, htokens⟩)
  · rw [List.length_append, hlength, List.length_map, Nat.add_comm]

/-- The table of a scan tells its tokens, and has one line for each below the two of its heading if
the name of the file has no newline. The text column can be read back, and no text breaks its
line. -/
theorem table_faithful (file source source' : Bytes) :
    ((Delivery.offer none (lines (scan file source).tokens)).received =
        (Delivery.offer none (lines (scan file source').tokens)).received →
      (scan file source).tokens = (scan file source').tokens) ∧
    (Bytes.newline ∉ file → ∃ rows,
      (Delivery.offer none (lines (scan file source).tokens)).received.splitOn Bytes.newline =
        rows ++ [[]] ∧
      rows.length = (scan file source).tokens.length + 2) ∧
    (∀ (s : String) (rest : Bytes),
      readLiteral (literal (bytes s) ++ rest) = some (bytes s, rest)) ∧
    ∀ text : Bytes, ∀ b ∈ literal text, b ≠ 10 ∧ b ≠ 9 ∧ b ≠ 13 := by
  refine ⟨fun h => ?_, fun hfile => ?_, readLiteral_literal, fun _ => ne_of_mem_literal⟩
  · rw [received_lines, received_lines] at h
    exact flatMap_tokenRow_inj of_mem_scan of_mem_scan (List.append_cancel_left h)
  · exact exists_rows hfile fun t ht => (of_mem_scan t ht).1

/-- Two sources that are refused behind the same tokens, in a file whose name looks like a row. -/
theorem table_faithful_of_refused :
    let file := bytes "a 1:1 EOF \"\""
    let source := bytes "PRINT \"x y\"\nLET a = 1.b"
    let source' := bytes "PRINT \"x y\"\nLET a = 2.c"
    (scan file source).fault.isSome = true ∧ (scan file source).tokens.length = 6 ∧
      (scan file source).tokens = (scan file source').tokens ∧
      ∃ rows, (Delivery.offer none (lines (scan file source).tokens)).received.splitOn
          Bytes.newline = rows ++ [[]] ∧
        rows.length = 8 := by
  intro file source source'
  have hlength : (scan file source).tokens.length = 6 := by decide +kernel
  obtain ⟨htokens, hrows, -⟩ := table_faithful file source source'
  obtain ⟨rows, hsplit, hcount⟩ := hrows (by decide +kernel)
  exact ⟨by decide +kernel, hlength, htokens (by decide +kernel), rows, hsplit,
    by rw [hcount, hlength]⟩

/-! ## A table that is cut off -/

theorem lines_ne_nil (tokens : List Token) : lines tokens ≠ [] :=
  List.cons_ne_nil _ _

/-- Every piece of the table is a text with the end of its line. -/
theorem exists_line_of_mem_lines {tokens : List Token} :
    ∀ piece ∈ lines tokens, ∃ text, piece = Bytes.line text := by
  refine List.forall_mem_append.2 ⟨?_, fun piece hpiece => ?_⟩
  · exact List.forall_mem_cons.2 ⟨⟨_, rfl⟩, List.forall_mem_singleton.2 ⟨_, rfl⟩⟩
  · obtain ⟨t, -, rfl⟩ := List.mem_map.1 hpiece
    exact ⟨_, rfl⟩

/-- The lines of the table: two of heading, and then one for each token. -/
theorem getElem?_lines (tokens : List Token) (i : Nat) :
    (lines tokens)[i + 2]? = tokens[i]?.map tokenRow := by
  rw [lines, List.getElem?_append_right (Nat.le_add_left 2 i), ← List.getElem?_map]
  rfl

/-- The table is two lines of heading and one line for each token, with its position, its kind and
its text in columns. A receiver with a limit gets the table by whole lines: those from the top, the
heading first, that it has room for together, and no line behind the first one that it refuses. The
table is incomplete exactly if it is larger than the limit. -/
theorem delivered_by_rows (tokens : List Token) (room : Option Int) :
    ((lines tokens).length = tokens.length + 2 ∧
      (lines tokens).take 2 =
        [Bytes.line (bytes "POSITION             TOKEN        LITERAL"),
          Bytes.line (bytes "-------------------- ------------ --------------------")] ∧
      ∀ i t, tokens[i]? = some t →
        (lines tokens)[i + 2]? =
          some (Bytes.line
            (t.position.text ++ List.replicate (20 - Column.width t.position.text) 32 ++
              bytes " " ++
              (t.kind.title ++ List.replicate (12 - Column.width t.kind.title) 32) ++
              bytes " " ++ literal t.text))) ∧
    (∀ piece ∈ lines tokens, ∃ text, piece = Bytes.line text) ∧
    (∃ written refused, lines tokens = written ++ refused ∧
      (Delivery.offer room (lines tokens)).received = written.flatten ∧
      ∀ front, front <+: lines tokens →
        (front <+: written ↔
          front = [] ∨ ∀ limit ∈ room, (front.flatten.length : Int) ≤ limit)) ∧
    ((Delivery.offer room (lines tokens)).complete = false ↔
      ∃ limit ∈ room, limit < (lines tokens).flatten.length) := by
  refine ⟨⟨?_, ?_, fun i t ht => ?_⟩, exists_line_of_mem_lines, ?_, ?_⟩
  · rw [lines, List.length_append, List.length_map, Nat.add_comm]
    rfl
  · have hheading : heading =
        [Bytes.line (bytes "POSITION             TOKEN        LITERAL"),
          Bytes.line (bytes "-------------------- ------------ --------------------")] := by
      decide +kernel
    rw [lines, hheading]
    rfl
  · rw [getElem?_lines, ht]
    rfl
  · obtain ⟨refused, hrefused⟩ := Delivery.taken_isPrefix room (lines tokens)
    refine ⟨_, refused, hrefused.symm, by rw [Delivery.offer_eq_taken], fun front hfront => ?_⟩
    rw [Delivery.prefix_taken_iff hfront, Delivery.fits_iff]
  · rw [Delivery.offer_eq_taken, decide_eq_false_iff_not,
      Delivery.taken_eq_iff (lines_ne_nil tokens), Delivery.fits_iff]
    simp

/-- There is room for the heading and for the short second row, and not for the first one. -/
theorem delivered_by_rows_of_short_row :
    let tokens : List Token :=
      [⟨⟨.string, bytes "long text"⟩, ⟨[], 1, 1⟩⟩, ⟨⟨.eof, []⟩, ⟨[], 2, 1⟩⟩]
    let limit : Int := (heading ++ [tokenRow ⟨⟨.eof, []⟩, ⟨[], 2, 1⟩⟩]).flatten.length
    (Delivery.offer (some limit) (lines tokens)).received = heading.flatten ∧
      (Delivery.offer (some limit) (lines tokens)).complete = false := by
  intro tokens limit
  obtain ⟨-, -, ⟨written, refused, hlines, hreceived, hlongest⟩, hcomplete⟩ :=
    delivered_by_rows tokens (some limit)
  have hheading : heading <+: written :=
    (hlongest heading ⟨tokens.map tokenRow, rfl⟩).2 (Or.inr (by decide +kernel))
  have hrow : ¬ (heading ++ [tokenRow ⟨⟨.string, bytes "long text"⟩, ⟨[], 1, 1⟩⟩]) <+: written := by
    rw [hlongest _ ⟨[tokenRow ⟨⟨.eof, []⟩, ⟨[], 2, 1⟩⟩], rfl⟩]
    decide +kernel
  -- what is written goes beyond the heading only with the first row
  obtain ⟨more, rfl⟩ := hheading
  have hmore : more = [] := by
    cases more with
    | nil => rfl
    | cons row more =>
      obtain ⟨rfl, -⟩ :=
        List.cons.inj (List.append_cancel_left (hlines.trans (List.append_assoc ..)))
      exact absurd ⟨more, by simp⟩ hrow
  rw [hreceived, hmore, List.append_nil]
  exact ⟨rfl, hcomplete.2 (by decide +kernel)⟩

end TokenTable

end Teeny
