import Teeny.Proofs.Text.ReadBack
import Teeny.Token.Scan

/-!
# What a lexeme is read from

`Reads l taken rest` says that the glyphs `taken`, with `rest` behind them, are read as the lexeme
`l`. It lists the forms of the language and, for each, what must not follow: a lexeme is always the
longest one that starts at its place. `Cursor.lexeme_eq_ok_iff` ties the relation to the scanner,
in both directions, so that no later proof opens the scanning functions.
-/

namespace Teeny

namespace Glyph

/-- Whether glyphs spell a word: a letter, and letters and digits behind it. -/
def isWord : List Glyph → Bool
  | [] => false
  | g :: gs => g.isLetter && gs.all isWordPart

/-- Whether glyphs are one or more digits. -/
def isDigits (gs : List Glyph) : Bool := gs ≠ [] && gs.all isDigit

theorem isChar_of_isLetter {g : Glyph} (h : g.isLetter = true) : g.isChar = true := by
  cases g with
  | char c => rfl
  | stray b => cases h

theorem isChar_of_isDigit {g : Glyph} (h : g.isDigit = true) : g.isChar = true := by
  cases g with
  | char c => rfl
  | stray b => cases h

theorem isChar_of_isWordPart {g : Glyph} (h : g.isWordPart = true) : g.isChar = true := by
  rcases Bool.or_eq_true_iff.1 h with h | h
  · exact isChar_of_isLetter h
  · exact isChar_of_isDigit h

theorem isChar_of_isStringPart {g : Glyph} (h : g.isStringPart = true) : g.isChar = true := by
  cases g with
  | char c => rfl
  | stray b => cases h

theorem isDigits_iff {gs : List Glyph} :
    isDigits gs = true ↔ gs ≠ [] ∧ ∀ g ∈ gs, g.isDigit = true := by
  simp [isDigits]

theorem isWordPart_of_isWord {gs : List Glyph} (h : isWord gs = true) :
    ∀ g ∈ gs, g.isWordPart = true := by
  cases gs with
  | nil => cases h
  | cons g gs =>
    simp only [isWord, Bool.and_eq_true, List.all_eq_true] at h
    intro x hx
    rcases List.mem_cons.1 hx with rfl | hx
    · simp [isWordPart, h.1]
    · exact h.2 x hx

end Glyph

namespace Operator

/-- Whether an equals sign would make a longer operator of this one. -/
def isExtensible : Operator → Bool
  | assign | less | greater => true
  | _ => false

/-- The glyphs of an operator. -/
def glyphs : Operator → List Glyph
  | assign => [.char '=']
  | plus => [.char '+']
  | minus => [.char '-']
  | times => [.char '*']
  | divide => [.char '/']
  | equal => [.char '=', .char '=']
  | notEqual => [.char '!', .char '=']
  | less => [.char '<']
  | lessEqual => [.char '<', .char '=']
  | greater => [.char '>']
  | greaterEqual => [.char '>', .char '=']

theorem encode_glyphs (o : Operator) : Glyph.encode o.glyphs = o.spelling := by
  cases o <;> decide

theorem length_spelling (o : Operator) : o.spelling.length = o.glyphs.length := by
  cases o <;> decide

end Operator

/-- The glyphs `taken` are read as the lexeme, with `rest` behind them. -/
inductive Reads : Lexeme → List Glyph → List Glyph → Prop where
  | eof : Reads ⟨.eof, []⟩ [] []
  | newline (rest : List Glyph) : Reads ⟨.newline, bytes "\n"⟩ [.char '\n'] rest
  | string {body : List Glyph} (rest : List Glyph) (h : ∀ g ∈ body, g.isStringPart = true) :
    Reads ⟨.string, Glyph.encode body⟩ (.char '"' :: body ++ [.char '"']) rest
  | whole {digits rest : List Glyph} (h : Glyph.isDigits digits = true)
    (hrest : Stops (fun g => g.isDigit || g = .char '.') rest) :
    Reads ⟨.number, Glyph.encode digits⟩ digits rest
  | fraction {whole part rest : List Glyph} (hwhole : Glyph.isDigits whole = true)
    (hpart : Glyph.isDigits part = true) (hrest : Stops Glyph.isDigit rest) :
    Reads ⟨.number, Glyph.encode (whole ++ .char '.' :: part)⟩ (whole ++ .char '.' :: part) rest
  | word {w rest : List Glyph} (h : Glyph.isWord w = true)
    (hrest : Stops Glyph.isWordPart rest) :
    Reads ⟨.ofWord (Glyph.encode w), Glyph.encode w⟩ w rest
  | operator (o : Operator) {rest : List Glyph}
    (hrest : o.isExtensible = true → rest.head? ≠ some (.char '=')) :
    Reads ⟨.operator o, o.spelling⟩ o.glyphs rest

namespace Cursor

/-- The cursor behind the glyphs `taken`, which lie ahead of it. -/
theorem advance_of_rest_eq {c : Cursor} {taken rest : List Glyph} (h : c.rest = taken ++ rest) :
    c.advance taken.length = ⟨c.position.afterAll taken, rest⟩ := by
  simp [advance, h]

theorem take_of_rest_eq {c : Cursor} {taken rest : List Glyph} (kind : Kind)
    (h : c.rest = taken ++ rest) :
    c.take kind taken.length =
      (⟨⟨kind, Glyph.encode taken⟩, c.position⟩, ⟨c.position.afterAll taken, rest⟩) := by
  rw [take, advance_of_rest_eq h, h, List.take_left]

/-! ## From the relation to the scanner -/

theorem string_of_rest {c : Cursor} {body rest : List Glyph}
    (hbody : ∀ g ∈ body, g.isStringPart = true)
    (h : c.rest = (.char '"' :: body ++ [.char '"']) ++ rest) :
    c.string = .ok (⟨⟨.string, Glyph.encode body⟩, c.position⟩,
      ⟨c.position.afterAll (.char '"' :: body ++ [.char '"']), rest⟩) := by
  have htail : c.rest.tail = body ++ (Glyph.char '"' :: rest) := by simp [h]
  have hrun : c.rest.tail.takeWhile Glyph.isStringPart = body := by
    rw [htail]
    exact takeWhile_run hbody (stops_cons.2 (by decide))
  have hlen : body.length + 2 = (Glyph.char '"' :: body ++ [Glyph.char '"']).length := by simp
  unfold string
  dsimp only
  rw [hrun, htail, List.drop_left]
  dsimp only
  rw [if_pos rfl, hlen, advance_of_rest_eq h]

theorem number_of_whole {c : Cursor} {digits rest : List Glyph}
    (hdigits : Glyph.isDigits digits = true)
    (hrest : Stops (fun g => g.isDigit || g = .char '.') rest) (h : c.rest = digits ++ rest) :
    c.number = .ok (⟨⟨.number, Glyph.encode digits⟩, c.position⟩,
      ⟨c.position.afterAll digits, rest⟩) := by
  have hstop : Stops Glyph.isDigit rest := fun g hg =>
    (Bool.or_eq_false_iff.1 (hrest g hg)).1
  have hrun : c.rest.takeWhile Glyph.isDigit = digits := by
    rw [h]
    exact takeWhile_run (Glyph.isDigits_iff.1 hdigits).2 hstop
  unfold number
  dsimp only
  rw [hrun, h, List.drop_left]
  split
  next tail =>
    have := stops_cons.1 hrest
    simp at this
  next => rw [take_of_rest_eq .number h]

theorem number_of_fraction {c : Cursor} {whole part rest : List Glyph}
    (hwhole : Glyph.isDigits whole = true) (hpart : Glyph.isDigits part = true)
    (hrest : Stops Glyph.isDigit rest) (h : c.rest = (whole ++ .char '.' :: part) ++ rest) :
    c.number = .ok (⟨⟨.number, Glyph.encode (whole ++ .char '.' :: part)⟩, c.position⟩,
      ⟨c.position.afterAll (whole ++ .char '.' :: part), rest⟩) := by
  obtain ⟨hne, hdigits⟩ := Glyph.isDigits_iff.1 hpart
  have hsplit : c.rest = whole ++ (.char '.' :: (part ++ rest)) := by simp [h]
  have hrun : c.rest.takeWhile Glyph.isDigit = whole := by
    rw [hsplit]
    exact takeWhile_run (Glyph.isDigits_iff.1 hwhole).2 (stops_cons.2 (by decide))
  have hlen : whole.length + 1 + part.length = (whole ++ Glyph.char '.' :: part).length := by
    simp
    omega
  unfold number
  dsimp only
  rw [hrun, hsplit, List.drop_left]
  simp only
  rw [takeWhile_run hdigits hrest, if_neg (by simpa using hne), hlen, take_of_rest_eq .number h]

theorem word_of_rest {c : Cursor} {w rest : List Glyph} (hw : Glyph.isWord w = true)
    (hrest : Stops Glyph.isWordPart rest) (h : c.rest = w ++ rest) :
    c.word = (⟨⟨.ofWord (Glyph.encode w), Glyph.encode w⟩, c.position⟩,
      ⟨c.position.afterAll w, rest⟩) := by
  have hrun : c.rest.takeWhile Glyph.isWordPart = w := by
    rw [h]
    exact takeWhile_run (Glyph.isWordPart_of_isWord hw) hrest
  unfold word
  dsimp only
  rw [hrun, take_of_rest_eq _ h]

/-- An operator is told by its first glyph and the glyph behind that. -/
theorem operator?_glyphs (o : Operator) {rest : List Glyph}
    (hrest : o.isExtensible = true → rest.head? ≠ some (.char '=')) :
    ∃ g more, o.glyphs = g :: more ∧ operator? g (more ++ rest) = .ok o := by
  cases o with
  | assign | less | greater =>
    refine ⟨_, [], rfl, ?_⟩
    simp [operator?, hrest rfl]
  | plus | minus | times | divide => exact ⟨_, [], rfl, rfl⟩
  | equal | notEqual | lessEqual | greaterEqual => exact ⟨_, [.char '='], rfl, rfl⟩

/-- No operator starts like a line end, a string, a number or a word. -/
theorem operator_head (o : Operator) {g : Glyph} {more : List Glyph} (h : o.glyphs = g :: more) :
    g ≠ .char '\n' ∧ g ≠ .char '"' ∧ g.isDigit = false ∧ g.isLetter = false := by
  cases o <;> (obtain ⟨rfl, -⟩ := List.cons.inj h; decide)

theorem ne_of_isDigit {g : Glyph} (h : g.isDigit = true) : g ≠ .char '\n' ∧ g ≠ .char '"' := by
  constructor <;> (rintro rfl; revert h; decide)

theorem ne_of_isLetter {g : Glyph} (h : g.isLetter = true) :
    g ≠ .char '\n' ∧ g ≠ .char '"' ∧ g.isDigit = false := by
  refine ⟨?_, ?_, ?_⟩
  · rintro rfl
    revert h
    decide
  · rintro rfl
    revert h
    decide
  · cases g with
    | stray b => rfl
    | char c =>
      -- digits stand before the capitals, and these before the small letters
      have hle : 65 ≤ c.val.toNat := by
        rcases Bool.or_eq_true_iff.1 (show (c.isUpper || c.isLower) = true from h) with h | h
        · exact UInt32.le_iff_toNat_le.1 (of_decide_eq_true h).1
        · have hlower : 97 ≤ c.val.toNat :=
            UInt32.le_iff_toNat_le.1 (of_decide_eq_true (Bool.and_eq_true_iff.1 h).1)
          omega
      refine Bool.eq_false_iff.2 fun hdigit => ?_
      have hge : c.val.toNat ≤ 57 :=
        UInt32.le_iff_toNat_le.1 (of_decide_eq_true (Bool.and_eq_true_iff.1 hdigit).2)
      omega

/-- Where a digit stands, a number is read. -/
theorem lexeme_of_isDigit {c : Cursor} {g : Glyph} {more : List Glyph} (h : c.rest = g :: more)
    (hg : g.isDigit = true) : c.lexeme = c.number := by
  obtain ⟨hnewline, hquote⟩ := ne_of_isDigit hg
  unfold lexeme
  rw [h]
  simp only [hnewline, hquote, hg, if_true, if_false]

/-- What `Reads` describes is what the scanner reads. -/
theorem lexeme_of_reads {c : Cursor} {l : Lexeme} {taken rest : List Glyph}
    (hreads : Reads l taken rest) (h : c.rest = taken ++ rest) :
    c.lexeme = .ok (⟨l, c.position⟩, ⟨c.position.afterAll taken, rest⟩) := by
  cases hreads with
  | eof =>
    have hnil : c.rest = [] := h
    unfold lexeme
    rw [hnil]
    simp only
    rw [show (0 : Nat) = ([] : List Glyph).length from rfl, take_of_rest_eq .eof h]
    rfl
  | newline rest =>
    unfold lexeme
    rw [h]
    simp only [List.cons_append, if_true]
    rw [show (1 : Nat) = [Glyph.char '\n'].length from rfl, take_of_rest_eq .newline h]
    rfl
  | string rest hbody =>
    unfold lexeme
    rw [h]
    simp only [List.cons_append]
    rw [if_neg (by decide), if_pos trivial, string_of_rest hbody h]
    rfl
  | whole hdigits hrest =>
    obtain ⟨hne, hall⟩ := Glyph.isDigits_iff.1 hdigits
    cases taken with
    | nil => contradiction
    | cons g more =>
      rw [lexeme_of_isDigit h (hall g (List.mem_cons_self ..)), number_of_whole hdigits hrest h]
  | @fraction whole part rest hwhole hpart hrest =>
    obtain ⟨hne, hall⟩ := Glyph.isDigits_iff.1 hwhole
    cases whole with
    | nil => contradiction
    | cons g more =>
      rw [lexeme_of_isDigit h (hall g (List.mem_cons_self ..)),
        number_of_fraction hwhole hpart hrest h]
  | word hw hrest =>
    cases taken with
    | nil => cases hw
    | cons g more =>
      obtain ⟨hnewline, hquote, hdigit⟩ := ne_of_isLetter (Bool.and_eq_true_iff.1 hw).1
      unfold lexeme
      rw [h]
      simp only [List.cons_append, hnewline, hquote, hdigit, if_false, Bool.false_eq_true,
        (Bool.and_eq_true_iff.1 hw).1, if_true]
      rw [word_of_rest hw hrest h]
  | operator o hrest =>
    obtain ⟨g, more, hg, ho⟩ := operator?_glyphs o hrest
    obtain ⟨hnewline, hquote, hdigit, hletter⟩ := operator_head o hg
    have hrest' : c.rest = g :: (more ++ rest) := by rw [h, hg, List.cons_append]
    unfold lexeme
    rw [hrest']
    simp only [hnewline, hquote, hdigit, hletter, if_false, Bool.false_eq_true, ho]
    rw [o.length_spelling, take_of_rest_eq _ h, o.encode_glyphs]

/-! ## From the scanner to the relation -/

theorem reads_of_string {c : Cursor} {more : List Glyph} {r : Token × Cursor}
    (hc : c.rest = .char '"' :: more) (h : c.string = .ok r) :
    ∃ l taken rest, Reads l taken rest ∧ c.rest = taken ++ rest := by
  unfold string at h
  dsimp only at h
  rw [hc, List.tail_cons, drop_length_takeWhile] at h
  have hsplit := List.takeWhile_append_dropWhile (p := Glyph.isStringPart) (l := more)
  split at h
  next => simp [fail] at h
  next g rest hdrop =>
    by_cases hg : g = .char '"'
    · subst hg
      rw [hdrop] at hsplit
      refine ⟨_, _, rest, .string rest fun x hx => of_mem_takeWhile (l := more) hx, ?_⟩
      rw [hc, List.cons_append, List.cons_append, List.append_assoc]
      exact congrArg (List.cons _) hsplit.symm
    · rw [if_neg hg] at h
      simp [fail] at h

theorem reads_of_number {c : Cursor} {g : Glyph} {more : List Glyph} {r : Token × Cursor}
    (hc : c.rest = g :: more) (hg : g.isDigit = true) (h : c.number = .ok r) :
    ∃ l taken rest, Reads l taken rest ∧ c.rest = taken ++ rest := by
  have hsplit := List.takeWhile_append_dropWhile (p := Glyph.isDigit) (l := c.rest)
  have hwhole : Glyph.isDigits (c.rest.takeWhile Glyph.isDigit) = true := by
    rw [Glyph.isDigits_iff]
    refine ⟨?_, fun x hx => of_mem_takeWhile hx⟩
    rw [hc, List.takeWhile_cons, if_pos hg]
    exact List.cons_ne_nil _ _
  have hstop : Stops Glyph.isDigit (c.rest.dropWhile Glyph.isDigit) := stops_dropWhile c.rest
  unfold number at h
  dsimp only at h
  rw [drop_length_takeWhile] at h
  split at h
  next tail hdrop =>
    have htail := List.takeWhile_append_dropWhile (p := Glyph.isDigit) (l := tail)
    split at h
    next => simp [fail] at h
    next hne =>
      have hpart : Glyph.isDigits (tail.takeWhile Glyph.isDigit) = true := by
        rw [Glyph.isDigits_iff]
        refine ⟨fun hnil => hne (by rw [hnil]; rfl), fun x hx => of_mem_takeWhile hx⟩
      refine ⟨_, _, _, .fraction hwhole hpart (stops_dropWhile tail), ?_⟩
      rw [List.append_assoc, List.cons_append, htail, ← hdrop, hsplit]
  next hdot =>
    refine ⟨_, _, _, .whole hwhole ?_, hsplit.symm⟩
    intro x hx
    show (x.isDigit || decide (x = .char '.')) = false
    rw [hstop x hx, Bool.false_or, decide_eq_false_iff_not]
    rintro rfl
    obtain ⟨tail, htail⟩ := List.head?_eq_some_iff.1 hx
    exact hdot tail htail

theorem reads_of_operator? {g : Glyph} {more : List Glyph} {o : Operator}
    (h : operator? g more = .ok o) :
    ∃ taken rest, Reads ⟨.operator o, o.spelling⟩ taken rest ∧ g :: more = taken ++ rest := by
  by_cases hdouble : more.head? = some (.char '=')
  · obtain ⟨rest, rfl⟩ := List.head?_eq_some_iff.1 hdouble
    unfold operator? at h
    simp only [hdouble, if_true] at h
    -- what an operator of one glyph leaves starts with the equals sign, but extends none of these
    split at h <;> cases h <;> exact ⟨_, _, .operator _ (fun hext => by cases hext), rfl⟩
  · unfold operator? at h
    simp only [hdouble, if_false] at h
    split at h <;> cases h <;> exact ⟨_, more, .operator _ fun _ => hdouble, rfl⟩

theorem exists_reads {c : Cursor} {r : Token × Cursor} (h : c.lexeme = .ok r) :
    ∃ l taken rest, Reads l taken rest ∧ c.rest = taken ++ rest := by
  unfold lexeme at h
  split at h
  next hnil => exact ⟨_, _, _, .eof, hnil⟩
  next g more hc =>
    by_cases hnewline : g = .char '\n'
    · subst hnewline
      exact ⟨_, _, more, .newline more, hc⟩
    rw [if_neg hnewline] at h
    by_cases hquote : g = .char '"'
    · subst hquote
      rw [if_pos rfl] at h
      exact reads_of_string hc h
    rw [if_neg hquote] at h
    by_cases hdigit : g.isDigit = true
    · rw [if_pos hdigit] at h
      exact reads_of_number hc hdigit h
    rw [if_neg hdigit] at h
    by_cases hletter : g.isLetter = true
    · have hword : Glyph.isWord (c.rest.takeWhile Glyph.isWordPart) = true := by
        rw [hc, List.takeWhile_cons, if_pos (by simp [Glyph.isWordPart, hletter])]
        simp [Glyph.isWord, hletter]
      exact ⟨_, _, _, .word hword (stops_dropWhile c.rest),
        (List.takeWhile_append_dropWhile).symm⟩
    rw [if_neg hletter] at h
    split at h
    next o ho =>
      obtain ⟨taken, rest, hreads, hsplit⟩ := reads_of_operator? ho
      exact ⟨_, taken, rest, hreads, hc.trans hsplit⟩
    next => simp [fail] at h

/-- The scanner reads exactly what `Reads` describes. -/
theorem lexeme_eq_ok_iff {c d : Cursor} {t : Token} :
    c.lexeme = .ok (t, d) ↔
      ∃ taken, Reads t.toLexeme taken d.rest ∧ c.rest = taken ++ d.rest ∧
        t.position = c.position ∧ d.position = c.position.afterAll taken := by
  constructor
  · intro h
    obtain ⟨l, taken, rest, hreads, hc⟩ := exists_reads h
    have hread := lexeme_of_reads hreads hc
    rw [h] at hread
    obtain ⟨rfl, rfl⟩ := Prod.mk.inj (Except.ok.inj hread)
    exact ⟨taken, hreads, hc, rfl, rfl⟩
  · rintro ⟨taken, hreads, hc, ht, hd⟩
    rw [lexeme_of_reads hreads hc, ← hd, ← ht]

end Cursor

end Teeny
