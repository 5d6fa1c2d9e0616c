import Teeny.Proofs.Token.Tokenisation

/-!
# Writing lexemes

Any sequence of well-formed lexemes is the scan of some source: write each lexeme as it is spelled,
strings in quotes, with a space between two of them. `scan_writeAll` says that scanning this text
gives the lexemes back, and behind them the line end and the end of the input that every source
has.

The space is what makes this work for every sequence. No lexeme can be made longer by it, and it is
blank, so the lexemes with their spaces are the tokenisation of the text (`tokenisation_spaced`).
-/

namespace Teeny

namespace Lexeme

/-- Lexemes in a row, with a space between two of them. -/
def writeAll (ls : List Lexeme) : Bytes := (bytes " ").intercalate (ls.map written)

/-- Lexemes with a space in front of each, and the end of the line and of the input. -/
def spaced (ls : List Lexeme) : List Piece :=
  ls.map (Piece.mk (bytes " ")) ++ [⟨[], .newline⟩, ⟨[], .eof⟩]

theorem stops_spaced (l : Lexeme) (ls : List Lexeme) :
    Stops l.isExtendedBy (Piece.texts (spaced ls)) := by
  have hbreak : ∀ b, b = 32 ∨ b = Bytes.newline → l.isExtendedBy b = false := by
    intro b hb
    have hclasses : Bytes.isWordPart b = false ∧ Bytes.isDigit b = false ∧ b ≠ Bytes.point ∧
        b ≠ Bytes.equals := by
      rcases hb with rfl | rfl <;> decide
    obtain ⟨hpart, hdigit, hpoint, hequals⟩ := hclasses
    unfold isExtendedBy
    split <;> simp [hpart, hdigit, hpoint, hequals]
  intro b hb
  apply hbreak
  cases ls with
  | nil => exact Or.inr (Option.some.inj hb).symm
  | cons l ls => exact Or.inl (Option.some.inj hb).symm

/-- A lexeme behind blanks and spaced lexemes behind it are a tokenisation. -/
theorem tokenisation_cons {gap : Bytes} {l : Lexeme} {ls : List Lexeme}
    (hgap : ∀ b ∈ gap, Bytes.isBlank b = true) (hl : l.isWellFormed = true ∧ l.kind ≠ .eof)
    (hls : Tokenisation (Piece.texts (spaced ls)) (spaced ls)) :
    Tokenisation (Piece.texts (⟨gap, l⟩ :: spaced ls)) (⟨gap, l⟩ :: spaced ls) :=
  Tokenisation.cons_iff.2
    ⟨.blank hgap, hasForm_iff.2 hl.1, stops_spaced l ls, rfl, by rwa [if_neg hl.2]⟩

theorem tokenisation_spaced {ls : List Lexeme}
    (hls : ∀ l ∈ ls, l.isWellFormed = true ∧ l.kind ≠ .eof) :
    Tokenisation (Piece.texts (spaced ls)) (spaced ls) := by
  have hnil : ∀ {kind : Kind}, Gap kind [] := fun {kind} => .blank (List.forall_mem_nil _)
  induction ls with
  | nil =>
    refine Tokenisation.cons_iff.2 ⟨hnil, rfl, fun b _ => rfl, rfl, ?_⟩
    rw [if_neg (by decide)]
    exact Tokenisation.cons_iff.2 ⟨hnil, rfl, fun b _ => rfl, rfl, rfl⟩
  | cons l ls ih =>
    obtain ⟨hl, hls⟩ := List.forall_mem_cons.1 hls
    exact tokenisation_cons (List.all_eq_true.1 rfl) hl (ih hls)

/-- The lexemes written in a row, with the newline behind them, are spaced pieces; no space stands
before the first of them. -/
theorem line_writeAll_cons (l : Lexeme) (ls : List Lexeme) :
    Bytes.line (writeAll (l :: ls)) = Piece.texts (⟨[], l⟩ :: spaced ls) := by
  induction ls generalizing l with
  | nil =>
    rw [writeAll, List.map_singleton, List.intercalate_singleton]
    rfl
  | cons l' ls ih =>
    have hcons : writeAll (l :: l' :: ls) = l.written ++ bytes " " ++ writeAll (l' :: ls) :=
      List.intercalate_cons_cons
    have hline : Bytes.line (writeAll (l :: l' :: ls)) =
        l.written ++ bytes " " ++ Bytes.line (writeAll (l' :: ls)) := by
      rw [hcons]
      simp only [Bytes.line, List.append_assoc]
    rw [hline, ih l']
    simp only [spaced, Piece.texts, Piece.text, List.map_cons, List.cons_append, List.flatMap_cons,
      List.append_assoc, List.nil_append]

end Lexeme

/-- Scanning a text made of well-formed lexemes gives them back, and the end of the last line and
of the input behind them. -/
theorem scan_writeAll (file : Bytes) {ls : List Lexeme}
    (hls : ∀ l ∈ ls, l.isWellFormed = true ∧ l.kind ≠ .eof) :
    (scan file (Lexeme.writeAll ls)).fault = none ∧
      (scan file (Lexeme.writeAll ls)).tokens.map Token.toLexeme = ls ++ [.newline, .eof] := by
  have hscan : ∀ ps, Tokenisation (Bytes.line (Lexeme.writeAll ls)) ps →
      ps.map Piece.lexeme = ls ++ [.newline, .eof] →
      (scan file (Lexeme.writeAll ls)).fault = none ∧
        (scan file (Lexeme.writeAll ls)).tokens.map Token.toLexeme = ls ++ [.newline, .eof] := by
    intro ps hps hlexemes
    rw [← hlexemes]
    exact hps.scan rfl
  have hlexemes : ∀ ls, (Lexeme.spaced ls).map Piece.lexeme = ls ++ [.newline, .eof] := by
    intro ls
    simp [Lexeme.spaced, Function.comp_def]
  cases ls with
  | nil => exact hscan _ (Lexeme.tokenisation_spaced hls) (hlexemes [])
  | cons l ls =>
    obtain ⟨hl, hmore⟩ := List.forall_mem_cons.1 hls
    refine hscan (⟨[], l⟩ :: Lexeme.spaced ls) ?_ (congrArg (List.cons l) (hlexemes ls))
    rw [Lexeme.line_writeAll_cons]
    exact Lexeme.tokenisation_cons (List.forall_mem_nil _) hl (Lexeme.tokenisation_spaced hmore)

/-- Scanning undoes writing. Lexemes of any kind but the end of the input, each with the form of its
kind, are written in a row with a space between two of them; the scan of that text finds no fault,
and it finds the lexemes in their order, and the end of the last line and of the input behind them.
So no two sequences of such lexemes are written alike. -/
theorem scan_undoes_writing (file : Bytes) (ls : List Lexeme)
    (hls : ∀ l ∈ ls, l.HasForm ∧ l.kind ≠ .eof) :
    (scan file (Lexeme.writeAll ls)).fault = none ∧
      (scan file (Lexeme.writeAll ls)).tokens.map Token.toLexeme = ls ++ [.newline, .eof] ∧
      ∀ ms : List Lexeme, (∀ l ∈ ms, l.HasForm ∧ l.kind ≠ .eof) →
        Lexeme.writeAll ms = Lexeme.writeAll ls → ms = ls := by
  have hwell : ∀ {ls : List Lexeme}, (∀ l ∈ ls, l.HasForm ∧ l.kind ≠ .eof) →
      ∀ l ∈ ls, l.isWellFormed = true ∧ l.kind ≠ .eof :=
    fun h l hl => ⟨Lexeme.hasForm_iff.1 (h l hl).1, (h l hl).2⟩
  obtain ⟨hfault, hlexemes⟩ := scan_writeAll file (hwell hls)
  refine ⟨hfault, hlexemes, ?_⟩
  intro ms hms hwritten
  obtain ⟨-, hagain⟩ := scan_writeAll file (hwell hms)
  rw [hwritten, hlexemes] at hagain
  exact (List.append_cancel_right hagain).symm

/-- Lexemes that would read as others without a space between them, a string of more than ASCII, and
the end of a line in the middle. -/
theorem scan_undoes_writing_of_close_lexemes :
    let ls : List Lexeme := [⟨.operator .less, bytes "<"⟩, ⟨.operator .assign, bytes "="⟩,
      ⟨.keyword .LET, bytes "LET"⟩, ⟨.name, bytes "LETx1"⟩, .newline, ⟨.number, bytes "1.50"⟩,
      ⟨.number, bytes "2"⟩, ⟨.string, bytes "# é"⟩]
    Lexeme.writeAll ls = bytes "< = LET LETx1 \n 1.50 2 \"# é\"" ∧
      (∀ l ∈ ls, l.HasForm ∧ l.kind ≠ .eof) ∧
      (scan [] (Lexeme.writeAll ls)).fault = none ∧
      (scan [] (Lexeme.writeAll ls)).tokens.map Token.toLexeme = ls ++ [.newline, .eof] := by
  intro ls
  have hls : ∀ l ∈ ls, l.HasForm ∧ l.kind ≠ .eof := by
    intro l hl
    have hchecked : ∀ l ∈ ls, (l.isWellFormed && l.kind ≠ .eof) = true := List.all_eq_true.1 rfl
    obtain ⟨hwell, hkind⟩ := Bool.and_eq_true_iff.1 (hchecked l hl)
    exact ⟨Lexeme.hasForm_iff.2 hwell, of_decide_eq_true hkind⟩
  obtain ⟨hfault, hlexemes, -⟩ := scan_undoes_writing [] ls hls
  exact ⟨by decide, hls, hfault, hlexemes⟩

end Teeny
