import Teeny.Proofs.Grammar.Decoding
import Teeny.Proofs.Token.Spelling

/-!
# Code as C reads it

Generated code is a text of C, and C splits a text into tokens by one rule: white space apart, the
next token is the longest that can be read (`munch`, `split`). So pieces of code written one behind
the other may run together: two minus signs become one token, and a slash in front of a star opens a
comment.

In the code of an expression nothing of the kind happens. A token is read as it was written if the
byte behind it does not go on with it (`split_token`), and what stands behind each piece of an
expression is known: behind a name or a number an operator, and behind an operator a name, a number,
a sign that makes no longer operator, or the space that keeps a sign apart. So C reads the lexemes
of the expression, one by one (`Expression.split_text`), and so for conditions.
-/

namespace Teeny

namespace Target

/-! ## Tokens -/

/-- Whether a byte is white space: a space, a tab, the end of a line or of a page. -/
def isSpace (b : UInt8) : Bool := b = 32 || 9 ≤ b && b ≤ 12

/-- Whether a byte starts an identifier: a letter or an underscore. -/
def isNondigit (b : UInt8) : Bool := Bytes.isLetter b || b = 95

/-- Whether a byte continues an identifier. -/
def isIdentifierPart (b : UInt8) : Bool := isNondigit b || Bytes.isDigit b

def isIdentifier : Bytes → Bool
  | [] => false
  | b :: rest => isNondigit b && rest.all isIdentifierPart

/-- Whether a byte continues a number, whatever stands before it. -/
def isNumberPart (b : UInt8) : Bool := isIdentifierPart b || b = Bytes.point

/-- Whether a sign behind a byte continues a number: the byte is an `E`, `e`, `P` or `p`. -/
def isExponent (b : UInt8) : Bool := b = 69 || b = 101 || b = 80 || b = 112

def isSign (b : UInt8) : Bool := b = 43 || b = 45

/-- Whether a text continues a number of which `last` is the last byte. -/
def isNumberTail : UInt8 → Bytes → Bool
  | _, [] => true
  | last, b :: rest => (isNumberPart b || isSign b && isExponent last) && isNumberTail b rest

/-- Whether a text is a number as the preprocessor reads it: a digit, or a point and a digit, and
whatever continues it. That is more than the constants there are. -/
def isNumber : Bytes → Bool
  | [] => false
  | b :: rest =>
    (Bytes.isDigit b || b = Bytes.point && rest.head?.any Bytes.isDigit) && isNumberTail b rest

/-- The punctuators, and the two pairs of bytes that open a comment. -/
def symbols : List Bytes :=
  ["[", "]", "(", ")", "\x7b", "\x7d", ".", "->", "++", "--", "&", "*", "+", "-", "~", "!", "/",
    "%", "<<", ">>", "<", ">", "<=", ">=", "==", "!=", "^", "|", "&&", "||", "?", ":", "::", ";",
    "...", "=", "*=", "/=", "%=", "+=", "-=", "<<=", ">>=", "&=", "^=", "|=", ",", "#", "##", "<:",
    ":>", "<%", "%>", "%:", "%:%:", "//", "/*"].map bytes

/-- Whether a text is an identifier or a number. -/
def isAtomic (text : Bytes) : Bool := isIdentifier text || isNumber text

def isToken (text : Bytes) : Bool := isAtomic text || symbols.contains text

/-- The longest token among the first `n` prefixes of a text. -/
def longest (text : Bytes) : Nat → Option Bytes
  | 0 => none
  | n + 1 => if isToken (text.take (n + 1)) then some (text.take (n + 1)) else longest text n

/-- The token that a text starts with: the longest there is, or one byte if there is none. -/
def munch (text : Bytes) : Bytes := (longest text text.length).getD (text.take 1)

/-- The tokens of a text of which `n` bytes have been read. -/
def splitFrom : Nat → Bytes → List Bytes
  | _, [] => []
  | n + 1, _ :: rest => splitFrom n rest
  | 0, b :: rest =>
    if isSpace b then splitFrom 0 rest
    else munch (b :: rest) :: splitFrom ((munch (b :: rest)).length - 1) rest

/-- The tokens of a text. -/
def split (text : Bytes) : List Bytes := splitFrom 0 text

/-! ## Reading one token -/

/-- No token goes on with `b` behind the text, whatever follows. -/
def Breaks (text : Bytes) (b : UInt8) : Prop := ∀ more, isToken (text ++ b :: more) = false

/-- A token is the longest that can be read if it is followed by nothing that goes on with it. -/
theorem longest_append {token rest : Bytes} (htoken : isToken token = true)
    (hrest : ∀ b ∈ rest.head?, Breaks token b) {n : Nat} (hn : n ≤ rest.length) :
    longest (token ++ rest) (token.length + n) = some token := by
  induction n with
  | zero =>
    cases token with
    | nil => exact absurd htoken (by decide)
    | cons b token =>
      have htake : ((b :: token) ++ rest).take (token.length + 1) = b :: token :=
        List.take_left' rfl
      show longest _ (token.length + 1) = _
      rw [longest, htake, if_pos htoken]
  | succ n ih =>
    cases rest with
    | nil => cases hn
    | cons b rest =>
      have htake : (token ++ b :: rest).take (token.length + n + 1) =
          token ++ b :: rest.take n := by
        rw [Nat.add_assoc, List.take_length_add_append]
        rfl
      rw [← Nat.add_assoc, longest, htake, hrest b rfl]
      exact ih (Nat.le_of_succ_le hn)

theorem munch_append {token rest : Bytes} (htoken : isToken token = true)
    (hrest : ∀ b ∈ rest.head?, Breaks token b) : munch (token ++ rest) = token := by
  rw [munch, List.length_append, longest_append htoken hrest (Nat.le_refl _)]
  rfl

theorem splitFrom_append (read rest : Bytes) :
    splitFrom read.length (read ++ rest) = split rest := by
  induction read with
  | nil => rfl
  | cons b read ih => exact ih

theorem split_space (rest : Bytes) : split (bytes " " ++ rest) = split rest := rfl

/-- How the classes of bytes lie to each other. -/
theorem classes_apart (b : UInt8) :
    (isNondigit b = true ∨ Bytes.isDigit b = true ∨ b = Bytes.point → isSpace b = false) ∧
      (isNondigit b = true → Bytes.isDigit b = false ∧ b ≠ Bytes.point) ∧
      (Bytes.isDigit b = true ∨ b = Bytes.point → isExponent b = false) := by
  revert b
  exact Glyph.forall_byte (by decide +kernel)

/-- What the list of the symbols shows: none starts with white space or like a name or a number,
those that do not start with a point hold no part of a name or a number and no space, and a sign
stands behind nothing but a sign. -/
theorem symbols_apart {symbol : Bytes} (h : symbol ∈ symbols) :
    symbol.head?.all (fun b => !isSpace b && !(isNondigit b || Bytes.isDigit b)) = true ∧
      (symbol.head? = some Bytes.point ||
        symbol.all fun b => !Bytes.isAtom b && b ≠ 32) = true ∧
      (symbol.head?.any isSign || symbol.tail.all fun b => !isSign b) = true := by
  have hall : symbols.all (fun s =>
      s.head?.all (fun b => !isSpace b && !(isNondigit b || Bytes.isDigit b)) &&
        ((s.head? = some Bytes.point || s.all fun b => !Bytes.isAtom b && b ≠ 32) &&
          (s.head?.any isSign || s.tail.all fun b => !isSign b))) = true := by
    decide +kernel
  have hsymbol := List.all_eq_true.1 hall symbol h
  obtain ⟨hhead, hrest⟩ := Bool.and_eq_true_iff.1 hsymbol
  exact ⟨hhead, Bool.and_eq_true_iff.1 hrest⟩

/-- No token starts with white space. -/
theorem isSpace_of_isToken {b : UInt8} {token : Bytes} (h : isToken (b :: token) = true) :
    isSpace b = false := by
  simp only [isToken, isAtomic, isIdentifier, isNumber, Bool.or_eq_true, Bool.and_eq_true,
    decide_eq_true_eq, List.contains_iff_mem] at h
  rcases h with (⟨hb, -⟩ | ⟨hb, -⟩) | hmem
  · exact (classes_apart b).1 (Or.inl hb)
  · exact (classes_apart b).1 (Or.inr (hb.imp_right And.left))
  · have hhead : (!isSpace b && !(isNondigit b || Bytes.isDigit b)) = true :=
      (symbols_apart hmem).1
    simpa using (Bool.and_eq_true_iff.1 hhead).1

/-- A token is read as it was written if nothing behind it goes on with it. -/
theorem split_token {token rest : Bytes} (htoken : isToken token = true)
    (hrest : ∀ b ∈ rest.head?, Breaks token b) : split (token ++ rest) = token :: split rest := by
  have hmunch := munch_append htoken hrest
  cases token with
  | nil => exact absurd htoken (by decide)
  | cons b token =>
    rw [List.cons_append] at hmunch
    rw [split, List.cons_append, splitFrom, isSpace_of_isToken htoken, hmunch]
    exact congrArg (List.cons (b :: token)) (splitFrom_append token rest)

/-- Otherwise tokens run together. -/
example : split (bytes "a--b/ *c") =
    [bytes "a", bytes "--", bytes "b", bytes "/", bytes "*", bytes "c"] := by
  decide +kernel

/-! ## Names, numbers and operators -/

/-- No symbol starts like a name or a number. -/
theorem notMem_symbols {b : UInt8} {text : Bytes}
    (hb : isNondigit b = true ∨ Bytes.isDigit b = true) : b :: text ∉ symbols := by
  intro hmem
  have hnone := (symbols_apart hmem).1
  rcases hb with hb | hb <;> simp [hb] at hnone

theorem isToken_of_notMem {text : Bytes} (h : text ∉ symbols) : isToken text = isAtomic text := by
  rw [isToken, List.contains_eq_mem, decide_eq_false h, Bool.or_false]

theorem breaks_identifier {text : Bytes} {b : UInt8} (htext : isIdentifier text = true)
    (hb : isIdentifierPart b = false) : Breaks text b := by
  cases text with
  | nil => cases htext
  | cons a text =>
    have ha := (Bool.and_eq_true_iff.1 htext).1
    intro more
    rw [List.cons_append, isToken_of_notMem (notMem_symbols (Or.inl ha))]
    simp [isAtomic, isIdentifier, isNumber, hb, (classes_apart a).2.1 ha]

theorem isNumberTail_of_parts {last : UInt8} {text : Bytes}
    (h : ∀ b ∈ text, isNumberPart b = true) : isNumberTail last text = true := by
  induction text generalizing last with
  | nil => rfl
  | cons b text ih =>
    obtain ⟨hb, htext⟩ := List.forall_mem_cons.1 h
    rw [isNumberTail, hb, ih htext]
    rfl

/-- Where there is no exponent, a sign does not continue a number. -/
theorem isNumberTail_append {last b : UInt8} {text : Bytes}
    (hexponent : ∀ c ∈ last :: text, isExponent c = false) (hb : isNumberPart b = false)
    (more : Bytes) : isNumberTail last (text ++ b :: more) = false := by
  obtain ⟨hlast, htext⟩ := List.forall_mem_cons.1 hexponent
  induction text generalizing last with
  | nil => simp [isNumberTail, hb, hlast]
  | cons c text ih =>
    rw [List.cons_append, isNumberTail, ih htext (List.forall_mem_cons.1 htext).1
      (List.forall_mem_cons.1 htext).2, Bool.and_false]

theorem breaks_number {a b : UInt8} {text : Bytes} (ha : Bytes.isDigit a = true)
    (hexponent : ∀ c ∈ a :: text, isExponent c = false) (hb : isNumberPart b = false) :
    Breaks (a :: text) b := by
  have hletter : isNondigit a = false := by
    refine Bool.eq_false_iff.2 fun hletter => ?_
    rw [((classes_apart a).2.1 hletter).1] at ha
    cases ha
  intro more
  rw [List.cons_append, isToken_of_notMem (notMem_symbols (Or.inr ha))]
  simp [isAtomic, isIdentifier, isNumber, hletter, isNumberTail_append hexponent hb]

/-- Symbols hold no part of a name or a number and no space, but for the points at the start of
some. -/
theorem notMem_of_mem_symbols {symbol : Bytes} (h : symbol ∈ symbols)
    (hhead : symbol.head? ≠ some Bytes.point) {b : UInt8} (hb : Bytes.isAtom b = true ∨ b = 32) :
    b ∉ symbol := by
  intro hmem
  have hall := (symbols_apart h).2.1
  rw [decide_eq_false hhead, Bool.false_or] at hall
  have hnone := List.all_eq_true.1 hall b hmem
  rcases hb with hb | rfl
  · simp [hb] at hnone
  · cases hnone

/-- In a symbol a sign stands behind nothing but a sign. -/
theorem notMem_symbols_of_sign {a b : UInt8} (ha : isSign a = false) (hb : isSign b = true)
    (text more : Bytes) : a :: (text ++ b :: more) ∉ symbols := by
  intro hmem
  have hnone := (symbols_apart hmem).2.2
  simp [ha, hb] at hnone

/-- An operator ends where a name or a number starts, at a space, and, unless it is a sign itself,
at a sign. -/
theorem breaks_spelling {o : Operator} {b : UInt8}
    (hb : (Bytes.isAtom b = true ∨ b = 32) ∨ isSign b = true ∧ o.isAdditive = false) :
    Breaks o.spelling b := by
  intro more
  have hmem : o.spelling ++ b :: more ∉ symbols := by
    rcases hb with hb | ⟨hb, ho⟩
    · have hhead : (o.spelling ++ b :: more).head? ≠ some Bytes.point := by
        cases o <;> exact fun h => absurd (Option.some.inj h) (by decide)
      exact fun hmem => notMem_of_mem_symbols hmem hhead hb (by simp)
    · obtain ⟨a, text, hspelling, ha⟩ : ∃ a text, o.spelling = a :: text ∧ isSign a = false := by
        cases o <;> first | exact ⟨_, _, rfl, by decide⟩ | cases ho
      rw [hspelling]
      exact notMem_symbols_of_sign ha hb text more
  rw [isToken_of_notMem hmem]
  cases o <;> rfl

theorem isToken_spelling (o : Operator) : isToken o.spelling = true := by
  cases o <;> decide +kernel

end Target

open Target

namespace Primary

/-- A name of a program is an identifier. -/
theorem isIdentifier_reference (x : Identifier) : isIdentifier x.text = true := by
  have hword := Bytes.isWord_decode.1 x.isWord
  cases hx : x.text with
  | nil =>
    rw [hx] at hword
    cases hword
  | cons b rest =>
    rw [hx] at hword
    obtain ⟨hb, hrest⟩ := Bool.and_eq_true_iff.1 hword
    refine Bool.and_eq_true_iff.2 ⟨by rw [isNondigit, hb, Bool.true_or], ?_⟩
    refine List.all_eq_true.2 fun c hc => ?_
    rcases Bool.or_eq_true_iff.1 (List.all_eq_true.1 hrest c hc) with hc | hc
    · simp [isIdentifierPart, isNondigit, hc]
    · simp [isIdentifierPart, hc]

/-- A number of a program starts with a digit and holds digits and a point only. -/
theorem exists_number (n : Numeral) :
    ∃ b rest, n.text = b :: rest ∧ Bytes.isDigit b = true ∧
      ∀ c ∈ n.text, Bytes.isDigit c = true ∨ c = Bytes.point := by
  obtain ⟨b, rest, hn, hb⟩ := n.exists_head
  rw [Glyph.isDigit_ofByte] at hb
  refine ⟨b, rest, hn, hb, fun c hc => ?_⟩
  rcases Bytes.isNumeral_iff.1 n.isNumeral with h | ⟨whole, part, htext, hwhole, hpart⟩
  · exact Or.inl ((Bytes.isDigits_iff.1 h).2 c hc)
  · rw [htext] at hc
    rcases List.mem_append.1 hc with hc | hc
    · exact Or.inl ((Bytes.isDigits_iff.1 hwhole).2 c hc)
    · rcases List.mem_cons.1 hc with hc | hc
      · exact Or.inr hc
      · exact Or.inl ((Bytes.isDigits_iff.1 hpart).2 c hc)

theorem isAtomic_text (x : Primary) : isAtomic x.lexeme.text = true := by
  cases x with
  | reference x => exact Bool.or_eq_true_iff.2 (Or.inl (isIdentifier_reference x))
  | number n =>
    obtain ⟨b, rest, hn, hb, hparts⟩ := exists_number n
    have hpart : ∀ c ∈ rest, isNumberPart c = true := by
      intro c hc
      rcases hparts c (by simp [hn, hc]) with h | h <;> simp [isNumberPart, isIdentifierPart, h]
    refine Bool.or_eq_true_iff.2 (Or.inr ?_)
    show isNumber n.text = true
    rw [hn, isNumber, hb, isNumberTail_of_parts hpart]
    rfl

theorem isToken_text (x : Primary) : isToken x.lexeme.text = true := by
  rw [isToken, x.isAtomic_text, Bool.true_or]

/-- A name or a number ends where nothing continues a number. -/
theorem breaks_text (x : Primary) {b : UInt8} (hb : isNumberPart b = false) :
    Breaks x.lexeme.text b := by
  cases x with
  | reference x =>
    exact breaks_identifier (isIdentifier_reference x) (Bool.or_eq_false_iff.1 hb).1
  | number n =>
    obtain ⟨a, rest, hn, ha, hparts⟩ := exists_number n
    show Breaks n.text b
    rw [hn] at hparts ⊢
    exact breaks_number ha (fun c hc => (classes_apart c).2.2 (hparts c hc)) hb

/-- So a name or a number is read as one token. -/
theorem split_text (x : Primary) {rest : Bytes} (hrest : Stops isNumberPart rest) :
    split (x.lexeme.text ++ rest) = x.lexeme.text :: split rest :=
  split_token x.isToken_text fun b hb => x.breaks_text (hrest b hb)

end Primary

/-! ## Expressions -/

theorem Operator.stops_isNumberPart (o : Operator) (rest : Bytes) :
    Stops isNumberPart (o.spelling ++ rest) := by
  cases o <;> exact stops_cons.2 (by decide)

theorem Operand.split_text (afterSign : Bool) (u : Operand) {rest : Bytes}
    (hrest : Stops isNumberPart rest) :
    split (u.text afterSign ++ rest) = u.lexemes.map Lexeme.text ++ split rest := by
  obtain ⟨sign, x⟩ := u
  cases sign with
  | none =>
    rw [text_unsigned, x.split_text hrest]
    rfl
  | some o =>
    have hsign : split (o.1.spelling ++ (x.lexeme.text ++ rest)) =
        o.1.spelling :: x.lexeme.text :: split rest := by
      rw [split_token (isToken_spelling o.1), x.split_text hrest]
      obtain ⟨b, more, hx, hb⟩ := x.exists_head
      rw [hx]
      intro b' hb'
      cases hb'
      exact breaks_spelling (Or.inl (Or.inl hb))
    -- the space in front of the sign is no token
    cases afterSign with
    | false => simpa [text_eq, lexemes, Lexeme.ofOperator] using hsign
    | true =>
      have hspace := split_space (o.1.spelling ++ (x.lexeme.text ++ rest))
      rw [hsign] at hspace
      simpa [text_eq, lexemes, Lexeme.ofOperator] using hspace

namespace Expression

/-- An operator is read as it was written in front of an expression, if a space keeps a sign apart
wherever the operator is a sign itself. -/
theorem split_operator {o : Operator} {afterSign : Bool} (ho : o.isAdditive = afterSign)
    (e : Expression) (rest : Bytes) :
    split (o.spelling ++ (e.text afterSign ++ rest)) =
      o.spelling :: split (e.text afterSign ++ rest) := by
  obtain ⟨b, more, he, hclass⟩ := e.exists_text_head afterSign
  refine split_token (isToken_spelling o) fun b' hb' => breaks_spelling ?_
  rw [he] at hb'
  cases hb'
  rcases hclass with hb | ⟨rfl | rfl | rfl, hspace⟩
  · exact Or.inl (Or.inl hb)
  · exact Or.inl (Or.inr rfl)
  · refine Or.inr ⟨rfl, ho.trans ?_⟩
    simpa using hspace
  · refine Or.inr ⟨rfl, ho.trans ?_⟩
    simpa using hspace

/-- C reads the lexemes of an expression in its code, where nothing continues the last one. -/
theorem split_text (afterSign : Bool) (e : Expression) {rest : Bytes}
    (hrest : Stops isNumberPart rest) :
    split (e.text afterSign ++ rest) = e.lexemes.map Lexeme.text ++ split rest := by
  induction e using Expression.induction generalizing afterSign with
  | operand u => simpa using u.split_text afterSign hrest
  | multiply u o e ih =>
    have ho := Operator.isAdditive_of_isMultiplicative o.2
    rw [text_multiply, List.append_assoc, List.append_assoc,
      u.split_text afterSign (o.1.stops_isNumberPart _), split_operator ho, ih]
    simp [Lexeme.ofOperator]
  | add u o e ih =>
    rw [text_add, List.append_assoc, List.append_assoc,
      u.split_text afterSign (o.1.stops_isNumberPart _), split_operator o.2, ih]
    simp [Lexeme.ofOperator]

end Expression

/-- C reads the lexemes of a condition in its code. -/
theorem Condition.split_text (c : Condition) :
    split c.text = c.lexemes.map Lexeme.text := by
  have hlinks : ∀ links : List ({ o : Operator // o.isRelational = true } × Expression),
      Stops isNumberPart (links.flatMap linkText) ∧
        split (links.flatMap linkText) =
          (links.flatMap fun link => .ofOperator link.1.1 :: link.2.lexemes).map Lexeme.text := by
    intro links
    induction links with
    | nil => exact ⟨by simp [Stops], rfl⟩
    | cons link links ih =>
      have ho := (Operator.roles_of_isRelational link.1.2).1
      rw [List.flatMap_cons, linkText, List.append_assoc]
      refine ⟨link.1.1.stops_isNumberPart _, ?_⟩
      rw [Expression.split_operator ho, link.2.split_text false ih.1, ih.2]
      simp [Lexeme.ofOperator]
  have htext : c.text = c.chain.first.text false ++ c.chain.rest.flatMap linkText := rfl
  rw [htext, c.chain.first.split_text false (hlinks _).1, (hlinks _).2,
    ← List.map_append]
  rfl

end Teeny
