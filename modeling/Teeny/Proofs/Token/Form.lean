import Teeny.Proofs.Token.Reading

/-!
# Well-formed lexemes

Each kind of lexeme has a form: reserved words and operators have one spelling, a name is a word
that is not reserved, a number is digits or digits on both sides of a point, and a string holds
only characters that stand for themselves in the generated code. `Lexeme.isWellFormed` says so as
a test. Whatever a scan finds passes it (`isWellFormed_of_mem_scan`), and the end of the input
stands behind everything else (`exists_eof_of_fault_none`, `kind_ne_eof_of_fault_some`).
-/

namespace Teeny

namespace Glyph

/-- Whether glyphs spell a number: digits, or digits on both sides of a point. -/
def isNumeral (gs : List Glyph) : Bool :=
  isDigits gs ||
    match gs.dropWhile isDigit with
    | .char '.' :: part => isDigits (gs.takeWhile isDigit) && isDigits part
    | _ => false

theorem isNumeral_iff {gs : List Glyph} :
    isNumeral gs = true ↔
      isDigits gs = true ∨
        ∃ whole part, gs = whole ++ .char '.' :: part ∧ isDigits whole = true ∧
          isDigits part = true := by
  constructor
  · intro h
    rcases Bool.or_eq_true_iff.1 h with h | h
    · exact Or.inl h
    · split at h
      next part hdrop =>
        obtain ⟨hwhole, hpart⟩ := Bool.and_eq_true_iff.1 h
        refine Or.inr ⟨_, part, ?_, hwhole, hpart⟩
        rw [← hdrop, List.takeWhile_append_dropWhile]
      next => cases h
  · rintro (h | ⟨whole, part, rfl, hwhole, hpart⟩)
    · simp [isNumeral, h]
    · have hstop : Stops isDigit (.char '.' :: part) := stops_cons.2 (by decide)
      have htake := takeWhile_run (isDigits_iff.1 hwhole).2 hstop
      have hdrop : (whole ++ .char '.' :: part).dropWhile isDigit = .char '.' :: part := by
        rw [← drop_length_takeWhile, htake, List.drop_left]
      rw [isNumeral, hdrop, htake, hwhole]
      simp [hpart]

/-- A number holds digits and points only. -/
theorem forall_mem_of_isNumeral {P : Glyph → Prop} {gs : List Glyph}
    (hdigit : ∀ g, g.isDigit = true → P g) (hpoint : P (.char '.')) (h : isNumeral gs = true) :
    ∀ g ∈ gs, P g := by
  have hdigits : ∀ ds, isDigits ds = true → ∀ g ∈ ds, P g := fun ds hds g hg =>
    hdigit g ((isDigits_iff.1 hds).2 g hg)
  rcases isNumeral_iff.1 h with h | ⟨whole, part, rfl, hwhole, hpart⟩
  · exact hdigits gs h
  · intro g hg
    rcases List.mem_append.1 hg with hg | hg
    · exact hdigits whole hwhole g hg
    · rcases List.mem_cons.1 hg with rfl | hg
      · exact hpoint
      · exact hdigits part hpart g hg

theorem isChar_of_isNumeral {gs : List Glyph} (h : isNumeral gs = true) :
    ∀ g ∈ gs, g.isChar = true :=
  forall_mem_of_isNumeral (fun _ => isChar_of_isDigit) rfl h

end Glyph

namespace Bytes

/-- Whether a text is a name: a word that is not reserved. -/
def isName (text : Bytes) : Bool :=
  Glyph.isWord (Glyph.decode text) && (Keyword.ofSpelling? text).isNone

/-- Whether a text is a number. -/
def isNumeral (text : Bytes) : Bool := Glyph.isNumeral (Glyph.decode text)

/-- Whether a text may stand between quotes. -/
def isPlain (text : Bytes) : Bool := (Glyph.decode text).all Glyph.isStringPart

end Bytes

namespace Lexeme

/-- The end of a line. -/
def newline : Lexeme := ⟨.newline, bytes "\n"⟩

/-- The end of the input. -/
def eof : Lexeme := ⟨.eof, []⟩

/-- Whether a lexeme has the form of its kind. -/
def isWellFormed (l : Lexeme) : Bool :=
  match l.kind with
  | .eof => l.text = []
  | .newline => l.text = bytes "\n"
  | .number => l.text.isNumeral
  | .name => l.text.isName
  | .string => l.text.isPlain
  | .keyword k => l.text = k.spelling
  | .operator o => l.text = o.spelling
  | .unknown | .unassigned _ => false

theorem eq_newline {l : Lexeme} (h : l.isWellFormed = true) (hkind : l.kind = .newline) :
    l = newline := by
  obtain ⟨kind, text⟩ := l
  subst hkind
  exact congrArg (Lexeme.mk _) (of_decide_eq_true h)

theorem eq_eof {l : Lexeme} (h : l.isWellFormed = true) (hkind : l.kind = .eof) :
    l = eof := by
  obtain ⟨kind, text⟩ := l
  subst hkind
  exact congrArg (Lexeme.mk _) (of_decide_eq_true h)

end Lexeme

theorem Keyword.spelling_of_ofSpelling? {word : Bytes} {k : Keyword}
    (h : ofSpelling? word = some k) : k.spelling = word := by
  simpa using List.find?_some h

/-- A word is a reserved one or a name. -/
theorem isWellFormed_ofWord {w : List Glyph} (h : Glyph.isWord w = true) :
    Lexeme.isWellFormed ⟨.ofWord (Glyph.encode w), Glyph.encode w⟩ = true := by
  have hdecode : Glyph.decode (Glyph.encode w) = w :=
    Glyph.decode_encode fun g hg => Glyph.isChar_of_isWordPart (Glyph.isWordPart_of_isWord h g hg)
  unfold Kind.ofWord
  split
  next k hk => simp [Lexeme.isWellFormed, Keyword.spelling_of_ofSpelling? hk]
  next hk => simp [Lexeme.isWellFormed, Bytes.isName, hdecode, h, hk]

/-- What is read has the form of its kind. -/
theorem Reads.isWellFormed {l : Lexeme} {taken rest : List Glyph} (h : Reads l taken rest) :
    l.isWellFormed = true := by
  have hnumeral : ∀ gs, Glyph.isNumeral gs = true →
      Lexeme.isWellFormed ⟨.number, Glyph.encode gs⟩ = true := by
    intro gs hgs
    show Glyph.isNumeral (Glyph.decode (Glyph.encode gs)) = true
    rw [Glyph.decode_encode (Glyph.isChar_of_isNumeral hgs), hgs]
  cases h with
  | eof => rfl
  | newline rest => rfl
  | @string body rest hbody =>
    show (Glyph.decode (Glyph.encode body)).all Glyph.isStringPart = true
    rw [Glyph.decode_encode fun g hg => Glyph.isChar_of_isStringPart (hbody g hg)]
    exact List.all_eq_true.2 hbody
  | whole hdigits hrest => exact hnumeral _ (Glyph.isNumeral_iff.2 (Or.inl hdigits))
  | fraction hwhole hpart hrest =>
    exact hnumeral _ (Glyph.isNumeral_iff.2 (Or.inr ⟨_, _, rfl, hwhole, hpart⟩))
  | word hw hrest => exact isWellFormed_ofWord hw
  | operator o hrest => simp [Lexeme.isWellFormed]

/-- The end of the input is read where nothing is left, and nowhere else. -/
theorem Reads.eof_iff {l : Lexeme} {taken rest : List Glyph} (h : Reads l taken rest) :
    l.kind = .eof ↔ taken ++ rest = [] := by
  cases h with
  | eof => simp
  | newline rest => simp
  | string rest hbody => simp
  | whole hdigits hrest => simp [(Glyph.isDigits_iff.1 hdigits).1]
  | fraction hwhole hpart hrest => simp
  | word hw hrest =>
    have hne : taken ≠ [] := by
      rintro rfl
      cases hw
    have hkind : Kind.ofWord (Glyph.encode taken) ≠ .eof := by
      unfold Kind.ofWord
      split <;> simp
    simp [hne, hkind]
  | operator o hrest =>
    cases o <;> simp [Operator.glyphs]

namespace Cursor

theorem isWellFormed_of_next {c d : Cursor} {t : Token} (h : c.next = .ok (t, d)) :
    t.isWellFormed = true := by
  obtain ⟨taken, hreads, -⟩ := lexeme_eq_ok_iff.1 h
  exact hreads.isWellFormed

/-- Behind the end of the input nothing is left. -/
theorem rest_of_next_eof {c d : Cursor} {t : Token} (h : c.next = .ok (t, d))
    (ht : t.kind = .eof) : d.rest = [] := by
  obtain ⟨taken, hreads, -⟩ := lexeme_eq_ok_iff.1 h
  exact (List.append_eq_nil_iff.1 (hreads.eof_iff.1 ht)).2

/-- The end of the input is read as often as it is asked for. -/
theorem next_of_rest_nil {c : Cursor} (h : c.rest = []) :
    ∃ t d, c.next = .ok (t, d) ∧ t.toLexeme = .eof := by
  have hskip : c.skipLayout.rest = [] := by
    have := length_skipLayout_le c
    rw [h] at this
    exact List.eq_nil_of_length_eq_zero (Nat.le_zero.1 this)
  exact ⟨_, _, lexeme_of_reads .eof hskip, rfl⟩

theorem scan_of_error {c : Cursor} {f : Diagnostic} (h : c.next = .error f) :
    c.scan = ⟨[], some f⟩ := by
  rw [scan]
  split
  next f' h' =>
    rw [h] at h'
    cases h'
    rfl
  next t d h' =>
    rw [h] at h'
    cases h'

theorem scan_of_ok {c d : Cursor} {t : Token} (h : c.next = .ok (t, d)) :
    c.scan = if t.kind = .eof then ⟨[t], none⟩ else ⟨t :: d.scan.tokens, d.scan.fault⟩ := by
  rw [scan]
  split
  next f h' =>
    rw [h] at h'
    cases h'
  next t' d' h' =>
    rw [h] at h'
    cases h'
    split <;> rfl

theorem isWellFormed_of_mem_scan (c : Cursor) : ∀ t ∈ c.scan.tokens, t.isWellFormed = true := by
  fun_induction scan c with
  | case1 c f hnext =>
    intro t ht
    cases ht
  | case2 c t d hnext ht =>
    intro x hx
    rw [List.mem_singleton.1 hx]
    exact isWellFormed_of_next hnext
  | case3 c t d hnext ht _ later ih =>
    intro x hx
    rcases List.mem_cons.1 hx with rfl | hx
    · exact isWellFormed_of_next hnext
    · exact ih x hx

/-- A scan without a fault ends with the end of the input, and with nothing else like it. -/
theorem exists_eof_of_fault_none (c : Cursor) (h : c.scan.fault = none) :
    ∃ ts e, c.scan.tokens = ts ++ [e] ∧ e.kind = .eof ∧ ∀ t ∈ ts, t.kind ≠ .eof := by
  fun_induction scan c with
  | case1 c f hnext => cases h
  | case2 c t d hnext ht => exact ⟨[], t, rfl, ht, fun x hx => by cases hx⟩
  | case3 c t d hnext ht _ later ih =>
    obtain ⟨ts, e, htokens, he, hts⟩ := ih h
    refine ⟨t :: ts, e, congrArg (List.cons t) htokens, he, ?_⟩
    intro x hx
    rcases List.mem_cons.1 hx with rfl | hx
    · exact ht
    · exact hts x hx

/-- A scan that a fault stops has not met the end of the input. -/
theorem kind_ne_eof_of_fault_some (c : Cursor) {f : Diagnostic} (h : c.scan.fault = some f) :
    ∀ t ∈ c.scan.tokens, t.kind ≠ .eof := by
  fun_induction scan c with
  | case1 c f' hnext =>
    intro t ht
    cases ht
  | case2 c t d hnext ht => cases h
  | case3 c t d hnext ht _ later ih =>
    intro x hx
    rcases List.mem_cons.1 hx with rfl | hx
    · exact ht
    · exact ih h x hx

end Cursor

end Teeny
