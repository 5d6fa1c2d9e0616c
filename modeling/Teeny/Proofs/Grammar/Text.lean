import Teeny.Proofs.Grammar.Tree
import Teeny.Proofs.Text.Ascii

/-!
# The text of the code

The code of each part of a program as one text, and what the bytes in it can be. Names and numbers
are runs of letters, digits and points (`Bytes.isAtom`); a string holds neither a quote nor a
backslash nor a percent sign. So each piece of code ends where a byte of another class stands, which
is what reading the code back rests on.
-/

namespace Teeny

/-! ## Bytes of leaves -/

/-- Whether a byte stands in names and numbers. -/
def Bytes.isAtom (b : UInt8) : Bool :=
  (Glyph.ofByte b).isLetter || (Glyph.ofByte b).isDigit || Glyph.ofByte b = .char '.'

/-- A text of ASCII, glyph by glyph: its bytes are atoms, if its glyphs are. -/
theorem isAtom_of_decode {text : Bytes}
    (h : ∀ g ∈ Glyph.decode text, g.isLetter = true ∨ g.isDigit = true ∨ g = .char '.') :
    text.map Glyph.ofByte = Glyph.decode text ∧ ∀ b ∈ text, Bytes.isAtom b = true := by
  have hascii : ∀ g ∈ Glyph.decode text, g.isAscii = true := by
    intro g hg
    rcases h g hg with hg | hg | rfl
    · exact Glyph.isAscii_of_isLetter hg
    · exact Glyph.isAscii_of_isDigit hg
    · rfl
  have hmap := Glyph.map_ofByte_encode hascii
  rw [Glyph.encode_decode] at hmap
  refine ⟨hmap, fun b hb => ?_⟩
  have hglyph : Glyph.ofByte b ∈ Glyph.decode text := by
    rw [← hmap]
    exact List.mem_map_of_mem hb
  simpa [Bytes.isAtom, or_assoc] using h _ hglyph

namespace Identifier

theorem isWord (x : Identifier) : Glyph.isWord (Glyph.decode x.text) = true :=
  (Bool.and_eq_true_iff.1 x.isName).1

theorem isAtom (x : Identifier) :
    x.text.map Glyph.ofByte = Glyph.decode x.text ∧ ∀ b ∈ x.text, Bytes.isAtom b = true := by
  refine isAtom_of_decode fun g hg => ?_
  have hpart := Glyph.isWordPart_of_isWord x.isWord g hg
  rcases Bool.or_eq_true_iff.1 hpart with hg | hg
  · exact Or.inl hg
  · exact Or.inr (Or.inl hg)

/-- A name starts with a letter. -/
theorem exists_head (x : Identifier) :
    ∃ b rest, x.text = b :: rest ∧ (Glyph.ofByte b).isLetter = true := by
  have hword := x.isWord
  rw [← x.isAtom.1] at hword
  cases hx : x.text with
  | nil =>
    rw [hx] at hword
    cases hword
  | cons b rest =>
    rw [hx] at hword
    exact ⟨b, rest, rfl, (Bool.and_eq_true_iff.1 hword).1⟩

end Identifier

namespace Numeral

theorem isAtom (n : Numeral) :
    n.text.map Glyph.ofByte = Glyph.decode n.text ∧ ∀ b ∈ n.text, Bytes.isAtom b = true := by
  refine isAtom_of_decode (Glyph.forall_mem_of_isNumeral ?_ ?_ n.isNumeral)
  · exact fun g hg => Or.inr (Or.inl hg)
  · exact Or.inr (Or.inr rfl)

/-- A number starts with a digit. -/
theorem exists_head (n : Numeral) :
    ∃ b rest, n.text = b :: rest ∧ (Glyph.ofByte b).isDigit = true := by
  obtain ⟨g, gs, hdecode, hg⟩ :
      ∃ g gs, Glyph.decode n.text = g :: gs ∧ g.isDigit = true := by
    have hdigits : ∀ ds, Glyph.isDigits ds = true → ∀ more,
        ∃ g gs, ds ++ more = g :: gs ∧ g.isDigit = true := by
      intro ds hds more
      obtain ⟨hne, hall⟩ := Glyph.isDigits_iff.1 hds
      cases ds with
      | nil => exact absurd rfl hne
      | cons g gs => exact ⟨g, gs ++ more, rfl, hall g (List.mem_cons_self ..)⟩
    rcases Glyph.isNumeral_iff.1 n.isNumeral with h | ⟨whole, part, heq, hwhole, -⟩
    · simpa using hdigits _ h []
    · rw [heq]
      exact hdigits whole hwhole _
  rw [← n.isAtom.1] at hdecode
  cases hn : n.text with
  | nil =>
    rw [hn] at hdecode
    cases hdecode
  | cons b rest =>
    rw [hn] at hdecode
    injection hdecode with hb
    exact ⟨b, rest, rfl, by rw [hb]; exact hg⟩

end Numeral

/-- What stands in a string is none of the bytes that end it or start a format. -/
theorem Literal.ne_of_mem (l : Literal) {b : UInt8} (hb : b ∈ l.text) :
    b ≠ 34 ∧ b ≠ 92 ∧ b ≠ 37 := by
  have hmem : b ∈ Glyph.encode (Glyph.decode l.text) := by
    rwa [Glyph.encode_decode]
  obtain ⟨g, hg, hb⟩ := List.mem_flatMap.1 hmem
  have hpart : g.isStringPart = true := List.all_eq_true.1 l.isPlain g hg
  cases g with
  | stray b => cases hpart
  | char c =>
    have hne : ∀ x : Char, x.val.toNat < 0x80 → Glyph.isPlain x = false →
        b ≠ UInt8.ofNat x.val.toNat := by
      rintro x hx hplain rfl
      -- a byte of ASCII is never a part of another character
      have hval := Glyph.mem_utf8EncodeChar_ascii hb (by
        rw [Glyph.toNat_ofNat_of_lt (by omega)]
        exact hx)
      rw [Glyph.toNat_ofNat_of_lt (by omega)] at hval
      obtain rfl : c = x := Char.ext (UInt32.toNat_inj.1 hval)
      rw [show (Glyph.char c).isStringPart = Glyph.isPlain c from rfl, hplain] at hpart
      cases hpart
    exact ⟨hne '"' (by decide) (by decide), hne '\\' (by decide) (by decide),
      hne '%' (by decide) (by decide)⟩

/-! ## Texts of the parts -/

namespace Emission

/-- The lines that emissions add to the header. -/
def headerOf (es : List Emission) : Bytes := es.flatMap headerText

/-- What emissions add to the body. -/
def bodyOf (es : List Emission) : Bytes := es.flatMap bodyText

@[simp] theorem bodyOf_nil : bodyOf [] = [] := rfl

@[simp] theorem bodyOf_cons (e : Emission) (es : List Emission) :
    bodyOf (e :: es) = e.bodyText ++ bodyOf es := rfl

@[simp] theorem bodyOf_append (es fs : List Emission) :
    bodyOf (es ++ fs) = bodyOf es ++ bodyOf fs :=
  List.flatMap_append

@[simp] theorem headerOf_nil : headerOf [] = [] := rfl

@[simp] theorem headerOf_cons (e : Emission) (es : List Emission) :
    headerOf (e :: es) = e.headerText ++ headerOf es := rfl

@[simp] theorem headerOf_append (es fs : List Emission) :
    headerOf (es ++ fs) = headerOf es ++ headerOf fs :=
  List.flatMap_append

end Emission

theorem Bytes.line_append (a b : Bytes) : Bytes.line (a ++ b) = a ++ Bytes.line b :=
  List.append_assoc ..

open Emission

/-- The text of an operand. -/
def Operand.text (afterSign : Bool) (u : Operand) : Bytes := bodyOf (u.emissions afterSign)

theorem Operand.text_eq (afterSign : Bool) (u : Operand) :
    u.text afterSign =
      (u.sign.toList.flatMap fun o => (if afterSign then bytes " " else []) ++ o.1.spelling) ++
        u.primary.lexeme.text := by
  obtain ⟨sign, x⟩ := u
  cases sign <;> cases afterSign <;> simp [text, emissions, bodyText]

namespace Expression

/-- The text of an expression. -/
def text (afterSign : Bool) (e : Expression) : Bytes := bodyOf (e.emissions afterSign)

variable (afterSign : Bool) (u : Operand) (e : Expression)

@[simp] theorem text_ofOperand : (ofOperand u).text afterSign = u.text afterSign := by
  simp [text, Operand.text]

@[simp] theorem text_multiply (o) :
    (multiply u o e).text afterSign = u.text afterSign ++ (o.1.spelling ++ e.text false) := by
  simp [text, Operand.text, bodyText]

@[simp] theorem text_add (o) :
    (add u o e).text afterSign = u.text afterSign ++ (o.1.spelling ++ e.text true) := by
  simp [text, Operand.text, bodyText]

end Expression

/-- The text of a condition. -/
def Condition.text (c : Condition) : Bytes :=
  c.chain.first.text false ++
    c.chain.rest.flatMap fun link => link.1.1.spelling ++ link.2.text false

theorem Condition.bodyOf_emissions (c : Condition) : bodyOf c.emissions = c.text := by
  have hrest : ∀ rest : List ({ o : Operator // o.isRelational = true } × Expression),
      bodyOf (rest.flatMap fun link => .code link.1.1.spelling :: link.2.emissions false) =
        rest.flatMap fun link => link.1.1.spelling ++ link.2.text false := by
    intro rest
    induction rest with
    | nil => rfl
    | cons link rest ih => simp [ih, Expression.text, bodyText]
  rw [text, ← hrest, Condition.emissions, Chain.flatten, bodyOf_append]
  rfl

/-- The text of a statement that holds no other. -/
def Simple.text : Simple → Bytes
  | printText newline text =>
    bytes "printf(\"" ++ (text.text ++ (ending newline ++ Bytes.line (bytes "\");")))
  | printValue newline value =>
    bytes "printf(\"%.2f" ++ (ending newline ++
      (bytes "\", (float)(" ++ (value.text false ++ Bytes.line (bytes "));"))))
  | label x => x.text ++ Bytes.line (bytes ":;")
  | jump x => bytes "goto " ++ (x.text ++ Bytes.line (bytes ";"))
  | assignment x value =>
    x.text ++ (bytes " = " ++ (value.text false ++ Bytes.line (bytes ";")))
  | input x =>
    bytes "if (0 == scanf(\"%f\", &" ++ (x.text ++ (Bytes.line (bytes ")) \x7b") ++
      (x.text ++ (Bytes.line (bytes " = 0;") ++
        (Bytes.line (bytes "scanf(\"%*s\");") ++ Bytes.line (bytes "\x7d"))))))

/-- A declaration goes to the header, so the text is the same whatever is known. -/
theorem Simple.bodyOf_emissions (known : List Bytes) (first : Simple) :
    bodyOf (first.emissions known) = first.text := by
  have hdeclaration : ∀ x, bodyOf (declaration known x) = [] := by
    intro x
    unfold declaration
    split <;> rfl
  cases first <;>
    simp [emissions, text, bodyText, Bytes.line_append, Expression.text, hdeclaration]

/-- The text of statements. -/
def Statements.text : Statements → Bytes
  | nil => []
  | simple first _ rest => first.text ++ rest.text
  | block b condition _ body _ rest =>
    b.lead ++ (condition.text ++ (Bytes.line (bytes ") \x7b") ++
      (body.text ++ (Bytes.line (bytes "\x7d") ++ rest.text))))

theorem Statements.bodyOf_emissions (known : List Bytes) (st : Statements) :
    bodyOf (st.emissions known) = st.text := by
  induction st generalizing known with
  | nil => rfl
  | simple first blank rest ih =>
    rw [emissions, bodyOf_append, Simple.bodyOf_emissions, ih, text]
  | block b c blank body blankBehind rest ihbody ihrest =>
    simp [emissions, text, bodyText, Condition.bodyOf_emissions, ihbody, ihrest]

/-! ## Headers -/

/-- The line that declares a variable. -/
def Identifier.declaration (x : Identifier) : Bytes :=
  bytes "float " ++ (x.text ++ Bytes.line (bytes ";"))

theorem Expression.headerOf_emissions (afterSign : Bool) (e : Expression) :
    headerOf (e.emissions afterSign) = [] := by
  have hoperand : ∀ (afterSign : Bool) (u : Operand), headerOf (u.emissions afterSign) = [] := by
    rintro afterSign ⟨sign, x⟩
    cases sign <;> cases afterSign <;> rfl
  induction e using Expression.induction generalizing afterSign with
  | operand u => simp [hoperand]
  | multiply u o e ih => simp [hoperand, ih, headerText]
  | add u o e ih => simp [hoperand, ih, headerText]

theorem Condition.headerOf_emissions (c : Condition) : headerOf c.emissions = [] := by
  have hrest : ∀ rest : List ({ o : Operator // o.isRelational = true } × Expression),
      headerOf (rest.flatMap fun link => .code link.1.1.spelling :: link.2.emissions false) =
        [] := by
    intro rest
    induction rest with
    | nil => rfl
    | cons link rest ih => simp [ih, Expression.headerOf_emissions, headerText]
  rw [Condition.emissions, Chain.flatten, headerOf_append, Expression.headerOf_emissions]
  exact hrest c.chain.rest

theorem Simple.headerOf_emissions (known : List Bytes) (first : Simple) :
    ∃ xs : List Identifier,
      headerOf (first.emissions known) = xs.flatMap Identifier.declaration := by
  have hdeclaration : ∀ x : Identifier, ∃ xs : List Identifier,
      headerOf (declaration known x.text) = xs.flatMap Identifier.declaration := by
    intro x
    unfold declaration
    split
    next => exact ⟨[], rfl⟩
    next => exact ⟨[x], by simp [headerText, Bytes.line_append, Identifier.declaration]⟩
  cases first with
  | printText newline text => exact ⟨[], rfl⟩
  | printValue newline value =>
    exact ⟨[], by simp [emissions, headerText, Expression.headerOf_emissions]⟩
  | label x => exact ⟨[], rfl⟩
  | jump x => exact ⟨[], rfl⟩
  | assignment x value =>
    obtain ⟨xs, hxs⟩ := hdeclaration x
    exact ⟨xs, by simp [emissions, headerText, Expression.headerOf_emissions, hxs]⟩
  | input x =>
    obtain ⟨xs, hxs⟩ := hdeclaration x
    exact ⟨xs, by simp [emissions, headerText, hxs]⟩

/-- The header of statements consists of declarations. -/
theorem Statements.headerOf_emissions (known : List Bytes) (st : Statements) :
    ∃ xs : List Identifier, headerOf (st.emissions known) = xs.flatMap Identifier.declaration := by
  induction st generalizing known with
  | nil => exact ⟨[], rfl⟩
  | simple first blank rest ih =>
    obtain ⟨xs, hxs⟩ := first.headerOf_emissions known
    obtain ⟨ys, hys⟩ := ih (Mention.learnAll known first.mentions)
    exact ⟨xs ++ ys, by simp [emissions, hxs, hys]⟩
  | block b c blank body blankBehind rest ihbody ihrest =>
    obtain ⟨xs, hxs⟩ := ihbody known
    obtain ⟨ys, hys⟩ := ihrest (Mention.learnAll known body.mentions)
    exact ⟨xs ++ ys, by simp [emissions, headerText, Condition.headerOf_emissions, hxs, hys]⟩

end Teeny
