import Teeny.Proofs.Token.Lines

/-!
# What a fault is found in

`Blames fault taken rest` says that the glyphs `taken`, with `rest` behind them, are the start of no
lexeme, and that the first glyph of `rest` is to blame: a glyph that no lexeme starts with, or one
that must not follow what was read of a number or a string. It is to faults what `Reads` is to
lexemes. In whole lines, every fault of the scanner is one of these, at the place of the glyph that
is to blame (`Cursor.blames_of_next`).
-/

namespace Teeny

/-- The glyphs `taken` are the start of a lexeme that `rest` does not go on with, for the given
reason; the first glyph of `rest` is to blame. -/
inductive Blames : Fault → List Glyph → List Glyph → Prop where
  /-- No lexeme starts with the glyph, and no layout either. -/
  | unexpected {g : Glyph} {rest : List Glyph} (hsolid : g.isSolid = true)
    (h : ∀ l taken behind, Reads l taken behind → taken.head? ≠ some g) :
    Blames (.unexpectedCharacter g) [] (g :: rest)
  /-- An exclamation mark, and no equals sign behind it. -/
  | exclamation {rest : List Glyph} (h : rest.head? ≠ some (.char '=')) :
    Blames .bareExclamation [] (.char '!' :: rest)
  /-- Digits and a point, and no digit behind them. -/
  | fraction {digits : List Glyph} {g : Glyph} {rest : List Glyph}
    (hdigits : Glyph.isDigits digits = true) (hg : g.isDigit = false) :
    Blames .missingFraction (digits ++ [.char '.']) (g :: rest)
  /-- A string up to a glyph that neither stands in a string nor ends one. -/
  | string {body : List Glyph} {g : Glyph} {rest : List Glyph}
    (hbody : ∀ x ∈ body, x.isStringPart = true) (hg : g.isStringPart = false)
    (hquote : g ≠ .char '"') : Blames g.stringFault (.char '"' :: body) (g :: rest)

/-! ## Glyphs that start no lexeme -/

/-- Where a lexeme starts with a glyph that is neither the end of a line nor a quote nor a digit nor
a letter, the glyph is the first one of an operator. -/
theorem Reads.exists_operator {l : Lexeme} {taken rest : List Glyph} (h : Reads l taken rest)
    {g : Glyph} (hg : taken.head? = some g) (hnewline : g ≠ .char '\n') (hquote : g ≠ .char '"')
    (hdigit : g.isDigit = false) (hletter : g.isLetter = false) :
    ∃ (o : Operator) (more : List Glyph), o.glyphs = g :: more := by
  have hdigits : ∀ {ds more : List Glyph}, Glyph.isDigits ds = true →
      (ds ++ more).head? ≠ some g := by
    intro ds more hds hhead
    obtain ⟨hne, hall⟩ := Glyph.isDigits_iff.1 hds
    cases ds with
    | nil => exact hne rfl
    | cons x ds =>
      cases hhead
      rw [hall _ (List.mem_cons_self ..)] at hdigit
      cases hdigit
  cases h with
  | eof => cases hg
  | newline rest =>
    cases hg
    exact absurd rfl hnewline
  | string rest hbody =>
    cases hg
    exact absurd rfl hquote
  | whole hds hrest =>
    rw [← List.append_nil taken] at hg
    exact absurd hg (hdigits hds)
  | fraction hwhole hpart hrest => exact absurd hg (hdigits hwhole)
  | word hw hrest =>
    cases taken with
    | nil => cases hw
    | cons x more =>
      cases hg
      rw [(Bool.and_eq_true_iff.1 hw).1] at hletter
      cases hletter
  | operator o hrest =>
    obtain ⟨more, hmore⟩ := List.head?_eq_some_iff.1 hg
    exact ⟨o, more, hmore⟩

namespace Cursor

/-- A glyph that is no operator and has none behind it starts no operator, or is an exclamation
mark. -/
theorem operator?_eq_error {g : Glyph} {rest : List Glyph} {fault : Fault}
    (h : operator? g rest = .error fault) :
    (g = .char '!' ∧ fault = .bareExclamation ∧ rest.head? ≠ some (.char '=')) ∨
      (fault = .unexpectedCharacter g ∧ ∀ (o : Operator) more, o.glyphs ≠ g :: more) := by
  by_cases hbang : g = .char '!'
  · subst hbang
    left
    by_cases hdouble : rest.head? = some (.char '=')
    · simp [operator?, hdouble] at h
    · simp only [operator?, hdouble, if_false, Except.error.injEq] at h
      exact ⟨rfl, h.symm, hdouble⟩
  · right
    -- an operator that starts with the glyph would be read, unless it is the exclamation mark
    have hstart : ∀ (o : Operator) more, o.glyphs ≠ g :: more := by
      intro o more ho
      cases o <;> obtain ⟨rfl, -⟩ := List.cons.inj ho <;> first | cases h | exact hbang rfl
    refine ⟨?_, hstart⟩
    unfold operator? at h
    dsimp only at h
    split at h
    case h_8 => exact absurd rfl hbang
    case h_9 => exact (Except.error.inj h).symm
    all_goals cases h

/-! ## Faults of the scanner -/

/-- Behind layout neither a blank nor a comment goes on. -/
theorem isSolid_skipLayout (c : Cursor) : ∀ g ∈ c.skipLayout.rest.head?, g.isSolid = true := by
  intro g hg
  rw [rest_skipLayout] at hg
  split at hg
  next hhash =>
    -- the comment ends at its newline, which is solid
    have hend := stops_dropWhile (p := fun g => g ≠ Glyph.char '\n') _ g hg
    rw [decide_eq_false_iff_not, ne_eq, Decidable.not_not] at hend
    subst hend
    decide
  next hhash =>
    have hblank : g.isBlank = false := stops_dropWhile _ g hg
    have hne : g ≠ .char '#' := fun he => hhash (he ▸ hg)
    simp [Glyph.isSolid, hblank, hne]

variable {c : Cursor} {f : Diagnostic}

theorem fail_eq_error {α : Type} {n : Nat} {fault : Fault}
    (h : (c.fail n fault : Except Diagnostic α) = .error f) :
    f.fault = fault ∧ f.position = c.position.afterAll (c.rest.take n) := by
  cases h
  exact ⟨rfl, rfl⟩

/-- In whole lines a number is refused for what stands behind its point. -/
theorem blames_of_number (hline : Glyph.EndsLine c.rest) {g : Glyph} {more : List Glyph}
    (hc : c.rest = g :: more) (hg : g.isDigit = true) (h : c.number = .error f) :
    ∃ taken rest, c.rest = taken ++ rest ∧ Blames f.fault taken rest ∧
      f.position = c.position.afterAll taken := by
  have hsplit := List.takeWhile_append_dropWhile (p := Glyph.isDigit) (l := c.rest)
  have hdigits : Glyph.isDigits (c.rest.takeWhile Glyph.isDigit) = true := by
    rw [Glyph.isDigits_iff]
    refine ⟨?_, fun x hx => of_mem_takeWhile hx⟩
    rw [hc, List.takeWhile_cons, if_pos hg]
    exact List.cons_ne_nil _ _
  unfold number at h
  dsimp only at h
  rw [drop_length_takeWhile] at h
  split at h
  next tail hdrop =>
    split at h
    next hnone =>
      have hrest : c.rest = (c.rest.takeWhile Glyph.isDigit ++ [.char '.']) ++ tail := by
        rw [List.append_assoc, List.singleton_append, ← hdrop, hsplit]
      obtain ⟨hfault, hposition⟩ := fail_eq_error h
      refine ⟨_, tail, hrest, ?_, ?_⟩
      · rw [hfault]
        cases tail with
        | nil =>
          -- the text would end with the point, and so not with a newline
          rw [List.append_nil] at hrest
          have hlast := hline (.char '.') (by rw [hrest, List.getLast?_concat]; rfl)
          cases hlast
        | cons x tail =>
          refine .fraction hdigits (Bool.eq_false_iff.2 fun hx => ?_)
          rw [List.takeWhile_cons, if_pos hx] at hnone
          cases hnone
      · rw [hposition]
        refine congrArg _ ?_
        have htake := @List.take_left _ (c.rest.takeWhile Glyph.isDigit ++ [.char '.']) tail
        rw [← hrest, List.length_append] at htake
        exact htake
    next => cases h
  next => cases h

/-- In whole lines a string is refused for the first glyph that may not stand in it. -/
theorem blames_of_string (hline : Glyph.EndsLine c.rest) {more : List Glyph}
    (hc : c.rest = .char '"' :: more) (h : c.string = .error f) :
    ∃ taken rest, c.rest = taken ++ rest ∧ Blames f.fault taken rest ∧
      f.position = c.position.afterAll taken := by
  have hsplit := List.takeWhile_append_dropWhile (p := Glyph.isStringPart) (l := more)
  have hbody : ∀ x ∈ more.takeWhile Glyph.isStringPart, x.isStringPart = true :=
    fun x hx => of_mem_takeWhile hx
  unfold string at h
  dsimp only at h
  rw [hc, List.tail_cons, drop_length_takeWhile] at h
  split at h
  next hdrop =>
    -- the text would end inside the string, and so not with a newline
    have hmem := newline_mem_of_endsLine hline (by rw [hc]; exact List.cons_ne_nil _ _)
    rw [hdrop, List.append_nil] at hsplit
    rw [hc, ← hsplit] at hmem
    rcases List.mem_cons.1 hmem with he | hmem
    · cases he
    · exact absurd (hbody _ hmem) (by decide)
  next g rest hdrop =>
    by_cases hg : g = .char '"'
    · rw [if_pos hg] at h
      cases h
    · rw [if_neg hg] at h
      rw [hdrop] at hsplit
      have hrest : c.rest = (.char '"' :: more.takeWhile Glyph.isStringPart) ++ g :: rest := by
        rw [hc, List.cons_append, hsplit]
      have hstop : Stops Glyph.isStringPart (g :: rest) := hdrop ▸ stops_dropWhile more
      obtain ⟨hfault, hposition⟩ := fail_eq_error h
      refine ⟨_, g :: rest, hrest, ?_, ?_⟩
      · rw [hfault]
        exact .string hbody (stops_cons.1 hstop) hg
      · rw [hposition]
        refine congrArg _ ?_
        have htake :=
          @List.take_left _ (.char '"' :: more.takeWhile Glyph.isStringPart) (g :: rest)
        rw [← hrest, List.length_cons] at htake
        exact htake

/-- In whole lines and behind layout, a fault is one of those that `Blames` describes, at the place
of the glyph that is to blame. -/
theorem blames_of_lexeme (hline : Glyph.EndsLine c.rest)
    (hsolid : ∀ g ∈ c.rest.head?, g.isSolid = true) (h : c.lexeme = .error f) :
    ∃ taken rest, c.rest = taken ++ rest ∧ Blames f.fault taken rest ∧
      f.position = c.position.afterAll taken := by
  unfold lexeme at h
  split at h
  next => cases h
  next g more hc =>
    by_cases hnewline : g = .char '\n'
    · rw [if_pos hnewline] at h
      cases h
    rw [if_neg hnewline] at h
    by_cases hquote : g = .char '"'
    · subst hquote
      rw [if_pos rfl] at h
      exact blames_of_string hline hc h
    rw [if_neg hquote] at h
    by_cases hdigit : g.isDigit = true
    · rw [if_pos hdigit] at h
      exact blames_of_number hline hc hdigit h
    rw [if_neg hdigit] at h
    by_cases hletter : g.isLetter = true
    · rw [if_pos hletter] at h
      cases h
    rw [if_neg hletter] at h
    split at h
    next => cases h
    next fault hfault =>
      obtain ⟨hf, hposition⟩ := fail_eq_error h
      refine ⟨[], g :: more, hc, ?_, hposition⟩
      rw [hf]
      rcases operator?_eq_error hfault with ⟨rfl, rfl, hdouble⟩ | ⟨rfl, hstart⟩
      · exact .exclamation hdouble
      · refine .unexpected (hsolid g (by rw [hc]; rfl)) ?_
        intro l taken behind hreads hhead
        obtain ⟨o, rest, ho⟩ := hreads.exists_operator hhead hnewline hquote
          (Bool.eq_false_iff.2 hdigit) (Bool.eq_false_iff.2 hletter)
        exact hstart o rest ho

/-- In whole lines, what cannot be read starts behind blanks, and no comment stands in front of
it. -/
theorem blames_of_next (hline : Glyph.EndsLine c.rest) (h : c.next = .error f) :
    ∃ blanks taken rest, c.rest = blanks ++ (taken ++ rest) ∧
      (∀ g ∈ blanks, g.isBlank = true) ∧ Blames f.fault taken rest ∧
      c.skipLayout.rest = taken ++ rest ∧ f.position = c.skipLayout.position.afterAll taken := by
  obtain ⟨blanks, comment, hlayout, hblanks, hcomment⟩ := c.exists_layout
  obtain ⟨taken, rest, hrest, hblames, hposition⟩ :=
    blames_of_lexeme ((Reaches.skipLayout c).endsLine hline) (isSolid_skipLayout c) h
  rcases hcomment with rfl | ⟨text, -, -, hend⟩
  · exact ⟨blanks, taken, rest, by rw [hlayout, hrest]; rfl, hblanks, hblames, hrest, hposition⟩
  · -- behind a comment stands its newline, or nothing, and both can be read
    exfalso
    cases hskip : c.skipLayout.rest with
    | nil =>
      have hread := lexeme_of_reads .eof hskip
      rw [← next, h] at hread
      cases hread
    | cons g more =>
      rw [hskip, stops_cons, decide_eq_false_iff_not, ne_eq, Decidable.not_not] at hend
      subst hend
      have hread := lexeme_of_reads (.newline more) hskip
      rw [← next, h] at hread
      cases hread

end Cursor

end Teeny
