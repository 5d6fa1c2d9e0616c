import Teeny.Proofs.Text.Ascii
import Teeny.Proofs.Token.Form

/-!
# Lexemes byte by byte

How a lexeme is written, said of the bytes of a source and without reading these as characters:
the form that each kind of lexeme has (`Lexeme.HasForm`), and the bytes that would make it longer
(`Lexeme.isExtendedBy`). Only strings hold characters of several bytes, and these are the bytes of
some text.

A lexeme is read at the start of a text exactly if it has the form of its kind, the text starts with
it, and no byte behind it would make it longer (`spelled_of_reads`, `reads_of_spelled`).
-/

namespace Teeny

/-! ## Classes of bytes -/

namespace Bytes

/-- Whether a byte separates lexemes without being one: a space, a tab, a carriage return. -/
def isBlank (b : UInt8) : Bool := b = 32 || b = 9 || b = 13

/-- Whether a byte is a decimal digit. -/
def isDigit (b : UInt8) : Bool := 48 ≤ b && b ≤ 57

/-- Whether a byte is a letter. -/
def isLetter (b : UInt8) : Bool := 65 ≤ b && b ≤ 90 || 97 ≤ b && b ≤ 122

/-- Whether a byte continues a word. -/
def isWordPart (b : UInt8) : Bool := isLetter b || isDigit b

/-- Whether a byte may stand in a string: it is neither a quote nor a backslash nor a percent sign,
and no control character. -/
def isStringPart (b : UInt8) : Bool := b ≠ 34 && b ≠ 92 && b ≠ 37 && 32 ≤ b && b ≠ 127

/-- The byte between the digits of a number. -/
def point : UInt8 := 46

/-- The byte that extends operators. -/
def equals : UInt8 := 61

/-- Whether a text is a letter with letters and digits behind it. -/
def isWord : Bytes → Bool
  | [] => false
  | b :: rest => isLetter b && rest.all isWordPart

/-- Whether a text is one or more digits. -/
def isDigits (text : Bytes) : Bool := text ≠ [] && text.all isDigit

end Bytes

namespace Glyph

/-- What holds of the bytes one by one holds of every byte. -/
theorem forall_byte {P : UInt8 → Prop} (h : ∀ n < 256, P (UInt8.ofNat n)) (b : UInt8) : P b := by
  have hb := h b.toNat b.toNat_lt
  rwa [UInt8.ofNat_toNat] at hb

/-- The classes of bytes are those of the glyphs. -/
theorem classes_ofByte (b : UInt8) :
    (ofByte b).isBlank = Bytes.isBlank b ∧ (ofByte b).isDigit = Bytes.isDigit b ∧
      (ofByte b).isLetter = Bytes.isLetter b ∧
      (ofByte b).isStringPart = Bytes.isStringPart b := by
  revert b
  exact forall_byte (by decide +kernel)

theorem isBlank_ofByte (b : UInt8) : (ofByte b).isBlank = Bytes.isBlank b := (classes_ofByte b).1

theorem isDigit_ofByte (b : UInt8) : (ofByte b).isDigit = Bytes.isDigit b := (classes_ofByte b).2.1

theorem isLetter_ofByte (b : UInt8) : (ofByte b).isLetter = Bytes.isLetter b :=
  (classes_ofByte b).2.2.1

theorem isStringPart_ofByte (b : UInt8) : (ofByte b).isStringPart = Bytes.isStringPart b :=
  (classes_ofByte b).2.2.2

theorem isStringPart_of_not_ascii (b : UInt8) (h : 0x80 ≤ b.toNat) :
    Bytes.isStringPart b = true := by
  have hne : ∀ c : UInt8, c.toNat < 0x80 → b ≠ c := by
    rintro c hc rfl
    omega
  have hspace : 32 ≤ b := UInt8.le_iff_toNat_le.2 (Nat.le_trans (by decide) h)
  simp [Bytes.isStringPart, hne 34 (by decide), hne 92 (by decide), hne 37 (by decide),
    hne 127 (by decide), hspace]

theorem isWordPart_ofByte (b : UInt8) : (ofByte b).isWordPart = Bytes.isWordPart b := by
  rw [isWordPart, isLetter_ofByte, isDigit_ofByte]
  rfl

/-- The characters that no string holds are of ASCII. -/
theorem isPlain_of_not_ascii {c : Char} (h : ¬ (char c).isAscii = true) : isPlain c = true := by
  have hc : ¬ c.val.toNat < 0x80 := fun hlt => h (decide_eq_true hlt)
  have hne : ∀ x : Char, x.val.toNat < 0x80 → c ≠ x := by
    intro x hx he
    exact hc (he ▸ hx)
  have hspace : 0x20 ≤ c.toNat := by
    show 0x20 ≤ c.val.toNat
    omega
  have hdelete : c.toNat ≠ 0x7F := by
    show c.val.toNat ≠ 0x7F
    omega
  simp [isPlain, hne '"' (by decide), hne '\\' (by decide), hne '%' (by decide), hspace, hdelete]

theorem ofByte_inj {a b : UInt8} (h : ofByte a = ofByte b) : a = b := by
  have hval : ∀ b : UInt8, (Char.ofNat b.toNat).val.toNat = b.toNat := by
    intro b
    apply toNat_val_ofNat
    left
    have := b.toNat_lt
    omega
  apply UInt8.toNat_inj.1
  rw [← hval a, ← hval b, Glyph.char.inj h]

end Glyph

/-! ## Forms of texts -/

namespace Bytes

variable {text : Bytes}

theorem isDigits_iff : isDigits text = true ↔ text ≠ [] ∧ ∀ b ∈ text, isDigit b = true := by
  simp [isDigits]

theorem isWordPart_of_isWord (h : isWord text = true) : ∀ b ∈ text, isWordPart b = true := by
  cases text with
  | nil => cases h
  | cons b rest =>
    obtain ⟨hb, hrest⟩ := Bool.and_eq_true_iff.1 h
    refine List.forall_mem_cons.2 ⟨?_, List.all_eq_true.1 hrest⟩
    rw [isWordPart, hb, Bool.true_or]

theorem toNat_lt_of_isWordPart {b : UInt8} (h : isWordPart b = true) : b.toNat < 0x80 := by
  rw [← Glyph.isWordPart_ofByte] at h
  exact Glyph.toNat_lt_of_isAscii (Glyph.isAscii_of_isWordPart h)

theorem toNat_lt_of_isDigit {b : UInt8} (h : isDigit b = true) : b.toNat < 0x80 := by
  rw [← Glyph.isDigit_ofByte] at h
  exact Glyph.toNat_lt_of_isAscii (Glyph.isAscii_of_isDigit h)

/-- A word, glyph by glyph and byte by byte. -/
theorem isWord_decode : Glyph.isWord (Glyph.decode text) = true ↔ isWord text = true := by
  have hread : (∀ b ∈ text, b.toNat < 0x80) →
      Glyph.isWord (Glyph.decode text) = isWord text := by
    intro hascii
    rw [Glyph.decode_of_ascii hascii]
    cases text with
    | nil => rfl
    | cons b rest =>
      simp [Glyph.isWord, isWord, Glyph.isLetter_ofByte, Function.comp_def,
        Glyph.isWordPart_ofByte]
  constructor
  · intro h
    rwa [hread] at h
    apply Glyph.ascii_of_decode
    intro g hg
    exact Glyph.isAscii_of_isWordPart (Glyph.isWordPart_of_isWord h g hg)
  · intro h
    rwa [hread]
    intro b hb
    exact toNat_lt_of_isWordPart (isWordPart_of_isWord h b hb)

theorem isDigits_map_ofByte : Glyph.isDigits (text.map Glyph.ofByte) = isDigits text := by
  simp [Glyph.isDigits, isDigits, Function.comp_def, Glyph.isDigit_ofByte]

/-- A number, glyph by glyph and byte by byte. -/
theorem isNumeral_iff :
    text.isNumeral = true ↔
      isDigits text = true ∨
        ∃ whole part, text = whole ++ point :: part ∧ isDigits whole = true ∧
          isDigits part = true := by
  have hascii : ∀ {ds : Bytes}, isDigits ds = true → ∀ b ∈ ds, b.toNat < 0x80 := by
    intro ds hds b hb
    exact toNat_lt_of_isDigit ((isDigits_iff.1 hds).2 b hb)
  constructor
  · intro h
    have hdecode : Glyph.decode text = text.map Glyph.ofByte := by
      apply Glyph.decode_of_ascii
      apply Glyph.ascii_of_decode
      exact Glyph.forall_mem_of_isNumeral (fun _ => Glyph.isAscii_of_isDigit) rfl h
    rw [isNumeral, hdecode, Glyph.isNumeral_iff] at h
    rcases h with h | ⟨whole, part, hsplit, hwhole, hpart⟩
    · rw [isDigits_map_ofByte] at h
      exact Or.inl h
    · obtain ⟨front, back, rfl, rfl, hback⟩ := List.map_eq_append_iff.1 hsplit
      obtain ⟨b, back, rfl, hb, rfl⟩ := List.map_eq_cons_iff.1 hback
      obtain rfl : b = point := Glyph.ofByte_inj hb
      rw [isDigits_map_ofByte] at hwhole hpart
      exact Or.inr ⟨front, back, rfl, hwhole, hpart⟩
  · intro h
    rw [isNumeral, Glyph.isNumeral_iff]
    rcases h with h | ⟨whole, part, rfl, hwhole, hpart⟩
    · left
      rwa [Glyph.decode_of_ascii (hascii h), isDigits_map_ofByte]
    · right
      refine ⟨whole.map Glyph.ofByte, part.map Glyph.ofByte, ?_, ?_, ?_⟩
      · rw [Glyph.decode_ascii_append (hascii hwhole), Glyph.decode_cons_ascii (by decide),
          Glyph.decode_of_ascii (hascii hpart)]
        rfl
      · rwa [isDigits_map_ofByte]
      · rwa [isDigits_map_ofByte]

/-- A text of characters is the encoding of a string. -/
theorem exists_string (h : ∀ g ∈ Glyph.decode text, g.isChar = true) :
    ∃ s : String, text = bytes s := by
  have hchars : ∀ gs : List Glyph, (∀ g ∈ gs, g.isChar = true) →
      ∃ s : String, Glyph.encode gs = bytes s := by
    intro gs hgs
    induction gs with
    | nil => exact ⟨"", rfl⟩
    | cons g gs ih =>
      obtain ⟨hg, hgs⟩ := List.forall_mem_cons.1 hgs
      obtain ⟨s, hs⟩ := ih hgs
      cases g with
      | stray b => cases hg
      | char c =>
        refine ⟨String.ofList (c :: s.toList), ?_⟩
        rw [Glyph.encode_cons, hs, bytes, bytes, String.toList_ofList, List.flatMap_cons]
        rfl
  obtain ⟨s, hs⟩ := hchars _ h
  exact ⟨s, by rw [← hs, Glyph.encode_decode]⟩

theorem decode_bytes (s : String) : Glyph.decode (bytes s) = s.toList.map Glyph.char := by
  have hencode : Glyph.encode (s.toList.map Glyph.char) = bytes s := by
    rw [Glyph.encode, List.flatMap_map]
    rfl
  rw [← hencode]
  apply Glyph.decode_encode
  intro g hg
  obtain ⟨c, -, rfl⟩ := List.mem_map.1 hg
  rfl

/-- Whether a text is the encoding of a string. -/
def IsEncoded (text : Bytes) : Prop := ∃ s : String, text = bytes s

theorem isEncoded_bytes (s : String) : IsEncoded (bytes s) := ⟨s, rfl⟩

theorem isEncoded_utf8EncodeChar (c : Char) : IsEncoded (String.utf8EncodeChar c) := by
  refine ⟨String.singleton c, ?_⟩
  rw [bytes, String.toList_singleton, List.flatMap_singleton]

theorem isEncoded_of_ascii (h : ∀ b ∈ text, b.toNat < 0x80) : IsEncoded text := by
  refine exists_string fun g hg => ?_
  rw [Glyph.decode_of_ascii h] at hg
  obtain ⟨b, -, rfl⟩ := List.mem_map.1 hg
  rfl

theorem IsEncoded.append {text' : Bytes} (h : IsEncoded text) (h' : IsEncoded text') :
    IsEncoded (text ++ text') := by
  obtain ⟨s, rfl⟩ := h
  obtain ⟨s', rfl⟩ := h'
  refine ⟨s ++ s', ?_⟩
  rw [bytes, bytes, bytes, String.toList_append, List.flatMap_append]

theorem isEncoded_flatMap {α : Type} {f : α → Bytes} (h : ∀ a, IsEncoded (f a)) (l : List α) :
    IsEncoded (l.flatMap f) := by
  induction l with
  | nil => exact isEncoded_bytes ""
  | cons a l ih => exact (h a).append ih

theorem isEncoded_intercalate {separator : Bytes} {texts : List Bytes} (h : IsEncoded separator)
    (htexts : ∀ t ∈ texts, IsEncoded t) : IsEncoded (separator.intercalate texts) := by
  induction texts with
  | nil => exact isEncoded_bytes ""
  | cons t texts ih =>
    obtain ⟨ht, hrest⟩ := List.forall_mem_cons.1 htexts
    cases texts with
    | nil => rwa [List.intercalate_singleton]
    | cons t' texts =>
      rw [List.intercalate_cons_cons]
      exact (ht.append h).append (ih hrest)

/-- What may stand in a string, glyph by glyph and byte by byte. -/
theorem isPlain_iff :
    text.isPlain = true ↔
      (∃ s : String, text = bytes s) ∧ ∀ b ∈ text, isStringPart b = true := by
  constructor
  · intro h
    have hparts : ∀ g ∈ Glyph.decode text, g.isStringPart = true := List.all_eq_true.1 h
    refine ⟨exists_string fun g hg => Glyph.isChar_of_isStringPart (hparts g hg), ?_⟩
    intro b hb
    by_cases hascii : b.toNat < 0x80
    · rw [← Glyph.encode_decode text] at hb
      obtain ⟨g, hg, hmem⟩ := List.mem_flatMap.1 hb
      have hpart := hparts g hg
      rwa [Glyph.eq_ofByte_of_mem hg hmem hascii, Glyph.isStringPart_ofByte] at hpart
    · exact Glyph.isStringPart_of_not_ascii b (Nat.not_lt.1 hascii)
  · intro h
    obtain ⟨⟨s, rfl⟩, hparts⟩ := h
    refine List.all_eq_true.2 fun g hg => ?_
    by_cases hascii : g.isAscii = true
    · obtain ⟨b, hb, rfl⟩ := Glyph.exists_ofByte hascii
      rw [Glyph.isStringPart_ofByte]
      apply hparts
      rw [← Glyph.encode_decode (bytes s)]
      refine List.mem_flatMap.2 ⟨_, hg, ?_⟩
      rw [Glyph.bytes_ofByte hb]
      exact List.mem_singleton_self b
    · rw [decode_bytes] at hg
      obtain ⟨c, -, rfl⟩ := List.mem_map.1 hg
      exact Glyph.isPlain_of_not_ascii hascii

end Bytes

/-! ## Forms of lexemes -/

theorem Keyword.ofSpelling?_eq_none_iff {word : Bytes} :
    ofSpelling? word = none ↔ ∀ k : Keyword, word ≠ k.spelling := by
  have hall : ∀ k : Keyword, k ∈ all := by
    intro k
    cases k <;> decide
  rw [ofSpelling?, List.find?_eq_none]
  constructor
  · intro h k hk
    exact h k (hall k) (decide_eq_true hk.symm)
  · intro h k _ hk
    exact h k (of_decide_eq_true hk).symm

namespace Lexeme

/-- Whether the text of a lexeme has the form of its kind. -/
def HasForm (l : Lexeme) : Prop :=
  match l.kind with
  | .eof => l.text = []
  | .newline => l.text = [Bytes.newline]
  | .number =>
    Bytes.isDigits l.text = true ∨
      ∃ whole part, l.text = whole ++ Bytes.point :: part ∧ Bytes.isDigits whole = true ∧
        Bytes.isDigits part = true
  | .name => Bytes.isWord l.text = true ∧ ∀ k : Keyword, l.text ≠ k.spelling
  | .string =>
    (∃ s : String, l.text = bytes s) ∧ ∀ b ∈ l.text, Bytes.isStringPart b = true
  | .keyword k => l.text = k.spelling
  | .operator o => l.text = o.spelling
  | .unknown | .unassigned _ => False

/-- Whether a byte behind a lexeme would make a longer one of it. -/
def isExtendedBy (l : Lexeme) (b : UInt8) : Bool :=
  match l.kind with
  | .name | .keyword _ => Bytes.isWordPart b
  | .number => Bytes.isDigit b || (b = Bytes.point && !l.text.contains Bytes.point)
  | .operator o => o.isExtensible && b = Bytes.equals
  | _ => false

/-- A lexeme as it stands in a source. -/
def written (l : Lexeme) : Bytes :=
  if l.kind = .string then bytes "\"" ++ l.text ++ bytes "\"" else l.text

theorem hasForm_iff {l : Lexeme} : l.HasForm ↔ l.isWellFormed = true := by
  obtain ⟨kind, text⟩ := l
  cases kind with
  | unknown => simp [HasForm, isWellFormed]
  | unassigned extra => simp [HasForm, isWellFormed]
  | eof => simp [HasForm, isWellFormed]
  | newline => exact (decide_eq_true_iff (p := text = bytes "\n")).symm
  | number => exact Bytes.isNumeral_iff.symm
  | name =>
    show Bytes.isWord text = true ∧ (∀ k : Keyword, text ≠ k.spelling) ↔ text.isName = true
    rw [Bytes.isName, Bool.and_eq_true, Bytes.isWord_decode, Option.isNone_iff_eq_none,
      Keyword.ofSpelling?_eq_none_iff]
  | string => exact Bytes.isPlain_iff.symm
  | keyword k => simp [HasForm, isWellFormed]
  | operator o => simp [HasForm, isWellFormed]

/-- Whatever may stand in a source as a lexeme is encoded. -/
theorem HasForm.isEncoded {l : Lexeme} (h : l.HasForm) : Bytes.IsEncoded l.text := by
  have hdigits : ∀ {ds : Bytes}, Bytes.isDigits ds = true → Bytes.IsEncoded ds := fun hds =>
    Bytes.isEncoded_of_ascii fun b hb =>
      Bytes.toNat_lt_of_isDigit ((Bytes.isDigits_iff.1 hds).2 b hb)
  obtain ⟨kind, text⟩ := l
  cases kind with
  | unknown => cases h
  | unassigned extra => cases h
  | eof => exact ⟨"", h⟩
  | newline => exact ⟨"\n", h⟩
  | number =>
    rcases h with h | ⟨whole, part, htext, hwhole, hpart⟩
    · exact hdigits h
    · have hpoint : text = whole ++ (bytes "." ++ part) := htext
      rw [hpoint]
      exact (hdigits hwhole).append ((Bytes.isEncoded_bytes ".").append (hdigits hpart))
  | name =>
    exact Bytes.isEncoded_of_ascii fun b hb =>
      Bytes.toNat_lt_of_isWordPart (Bytes.isWordPart_of_isWord h.1 b hb)
  | string => exact h.1
  | keyword k =>
    replace h : text = k.spelling := h
    rw [h]
    cases k <;> exact Bytes.isEncoded_bytes _
  | operator o =>
    replace h : text = o.spelling := h
    rw [h]
    cases o <;> exact Bytes.isEncoded_bytes _

/-- The glyphs that would make a lexeme longer. -/
def extending (l : Lexeme) (g : Glyph) : Bool :=
  match l.kind with
  | .name | .keyword _ => g.isWordPart
  | .number => g.isDigit || (g = .char '.' && !l.text.contains Bytes.point)
  | .operator o => o.isExtensible && g = .char '='
  | _ => false

theorem isAscii_of_extending {l : Lexeme} {g : Glyph} (h : l.extending g = true) :
    g.isAscii = true := by
  unfold extending at h
  split at h
  next => exact Glyph.isAscii_of_isWordPart h
  next => exact Glyph.isAscii_of_isWordPart h
  next =>
    rcases Bool.or_eq_true_iff.1 h with h | h
    · exact Glyph.isAscii_of_isDigit h
    · obtain rfl := of_decide_eq_true (Bool.and_eq_true_iff.1 h).1
      rfl
  next =>
    obtain rfl := of_decide_eq_true (Bool.and_eq_true_iff.1 h).2
    rfl
  next => cases h

theorem extending_ofByte (l : Lexeme) (b : UInt8) :
    l.extending (Glyph.ofByte b) = l.isExtendedBy b := by
  have hchar : ∀ x : UInt8, decide (Glyph.ofByte b = Glyph.ofByte x) = decide (b = x) := by
    intro x
    exact decide_eq_decide.2 ⟨Glyph.ofByte_inj, congrArg _⟩
  unfold extending isExtendedBy
  split
  next => exact Glyph.isWordPart_ofByte b
  next => exact Glyph.isWordPart_ofByte b
  next =>
    rw [Glyph.isDigit_ofByte, ← hchar Bytes.point]
    rfl
  next o =>
    rw [← hchar Bytes.equals]
    rfl
  next => rfl

/-- Whether a lexeme could be longer can be asked of the glyphs and of the bytes behind it. -/
theorem stops_extending_iff {l : Lexeme} {rest : Bytes} :
    Stops l.extending (Glyph.decode rest) ↔ Stops l.isExtendedBy rest := by
  rw [Glyph.stops_decode_iff fun g => isAscii_of_extending]
  simp only [extending_ofByte]

end Lexeme

/-! ## Reading what is spelled -/

namespace Glyph

/-- Whether a lexeme may start with a glyph: it is neither blank nor the start of a comment. -/
def isSolid (g : Glyph) : Bool := !g.isBlank && g ≠ .char '#'

/-- A character of a class that holds neither blanks nor the start of a comment is solid. -/
theorem isSolid_char {p : Char → Bool} {c : Char} (hc : p c = true)
    (hp : p ' ' = false ∧ p '\t' = false ∧ p '\r' = false ∧ p '#' = false) :
    (char c).isSolid = true := by
  have hne : ∀ x : Char, p x = false → char c ≠ char x := by
    rintro x hx ⟨⟩
    rw [hx] at hc
    cases hc
  obtain ⟨hspace, htab, hreturn, hhash⟩ := hp
  simp [isSolid, isBlank, hne ' ' hspace, hne '\t' htab, hne '\r' hreturn, hne '#' hhash]

theorem isSolid_of_isDigit {g : Glyph} (h : g.isDigit = true) : g.isSolid = true := by
  cases g with
  | stray b => cases h
  | char c => exact isSolid_char (p := Char.isDigit) h (by decide)

theorem isSolid_of_isLetter {g : Glyph} (h : g.isLetter = true) : g.isSolid = true := by
  cases g with
  | stray b => cases h
  | char c => exact isSolid_char (p := Char.isAlpha) h (by decide)

/-- Digits start with a solid glyph. -/
theorem exists_solid_of_isDigits {ds : List Glyph} (h : isDigits ds = true) (more : List Glyph) :
    ∃ g rest, ds ++ more = g :: rest ∧ g.isSolid = true := by
  obtain ⟨hne, hall⟩ := isDigits_iff.1 h
  cases ds with
  | nil => contradiction
  | cons g rest =>
    exact ⟨g, rest ++ more, rfl, isSolid_of_isDigit (hall g (List.mem_cons_self ..))⟩

end Glyph

namespace Reads

variable {l : Lexeme} {taken rest : List Glyph}

/-- The glyphs that a lexeme is read from are those it is written with. -/
theorem encode_eq (h : Reads l taken rest) : Glyph.encode taken = l.written := by
  cases h with
  | eof => rfl
  | newline rest => rfl
  | string rest hbody =>
    rw [Glyph.encode_append, Glyph.encode_cons]
    rfl
  | whole hdigits hrest => rfl
  | fraction hwhole hpart hrest => rfl
  | word hw hrest =>
    rw [Lexeme.written, if_neg]
    unfold Kind.ofWord
    split <;> simp
  | operator o hrest => exact o.encode_glyphs

/-- What is read starts with a solid glyph, unless it is the end of the input. -/
theorem exists_solid (h : Reads l taken rest) (hk : l.kind ≠ .eof) :
    ∃ g more, taken = g :: more ∧ g.isSolid = true := by
  cases h with
  | eof => exact absurd rfl hk
  | newline rest => exact ⟨_, _, rfl, by decide⟩
  | string rest hbody => exact ⟨_, _, rfl, by decide⟩
  | whole hdigits hrest => simpa using Glyph.exists_solid_of_isDigits hdigits []
  | fraction hwhole hpart hrest => exact Glyph.exists_solid_of_isDigits hwhole _
  | word hw hrest =>
    cases taken with
    | nil => cases hw
    | cons g more =>
      exact ⟨g, more, rfl, Glyph.isSolid_of_isLetter (Bool.and_eq_true_iff.1 hw).1⟩
  | operator o hrest => cases o <;> exact ⟨_, _, rfl, by decide⟩

/-- What is read could not be longer. -/
theorem stops (h : Reads l taken rest) : Stops l.extending rest := by
  cases h with
  | eof => exact fun g _ => rfl
  | newline rest => exact fun g _ => rfl
  | string rest hbody => exact fun g _ => rfl
  | whole hdigits hrest =>
    intro g hg
    obtain ⟨hdigit, hpoint⟩ := Bool.or_eq_false_iff.1 (hrest g hg)
    simp [Lexeme.extending, hdigit, of_decide_eq_false hpoint]
  | @fraction whole part rest hwhole hpart hrest =>
    intro g hg
    have hpoint : (Glyph.encode (whole ++ .char '.' :: part)).contains Bytes.point = true := by
      rw [List.contains_iff_mem, Glyph.encode_append]
      exact List.mem_append_right _ (List.mem_cons_self ..)
    simp only [Lexeme.extending, hrest g hg, hpoint, Bool.not_true, Bool.and_false, Bool.or_false]
  | word hw hrest =>
    intro g hg
    have hpart := hrest g hg
    unfold Kind.ofWord
    split <;> exact hpart
  | operator o hrest =>
    intro g hg
    show (o.isExtensible && decide (g = .char '=')) = false
    cases hext : o.isExtensible with
    | false => rfl
    | true =>
      rw [Bool.true_and, decide_eq_false_iff_not]
      intro he
      subst he
      exact hrest hext hg

end Reads

/-- The glyphs that a lexeme is written with: they are read as the lexeme wherever nothing behind
them would make it longer. -/
structure Written (l : Lexeme) (taken : List Glyph) : Prop where
  chars : ∀ g ∈ taken, g.isChar = true
  reads : ∀ rest, Stops l.extending rest → Reads l taken rest

theorem written_word {w : List Glyph} (h : Glyph.isWord w = true) :
    Written ⟨.ofWord (Glyph.encode w), Glyph.encode w⟩ w := by
  refine ⟨fun g hg => Glyph.isChar_of_isWordPart (Glyph.isWordPart_of_isWord h g hg), ?_⟩
  intro rest hrest
  refine .word h fun g hg => ?_
  have hstop := hrest g hg
  unfold Kind.ofWord at hstop
  split at hstop <;> exact hstop

theorem written_numeral {text : Bytes} (h : text.isNumeral = true) :
    Written ⟨.number, text⟩ (Glyph.decode text) := by
  refine ⟨Glyph.isChar_of_isNumeral h, ?_⟩
  intro rest hrest
  have hencode := Glyph.encode_decode text
  have hdigit : Stops Glyph.isDigit rest := fun g hg =>
    (Bool.or_eq_false_iff.1 (hrest g hg)).1
  rcases Glyph.isNumeral_iff.1 h with hdigits | ⟨whole, part, hsplit, hwhole, hpart⟩
  · -- digits hold no point, so a point would make them longer
    have hpoint : text.contains Bytes.point = false := by
      rw [Bool.eq_false_iff, ne_eq, List.contains_iff_mem]
      intro hmem
      rw [← hencode] at hmem
      obtain ⟨g, hg, hmem⟩ := List.mem_flatMap.1 hmem
      have hg' := (Glyph.isDigits_iff.1 hdigits).2 g hg
      rw [Glyph.eq_ofByte_of_mem hg hmem (by decide)] at hg'
      revert hg'
      decide
    have hstop : Stops (fun g => g.isDigit || g = .char '.') rest := by
      intro g hg
      have hg := hrest g hg
      simpa only [Lexeme.extending, hpoint, Bool.not_false, Bool.and_true] using hg
    have hreads := Reads.whole hdigits hstop
    rwa [hencode] at hreads
  · have hreads := Reads.fraction hwhole hpart hdigit
    rwa [← hsplit, hencode] at hreads

theorem written_string {body : List Glyph} (h : ∀ g ∈ body, g.isStringPart = true) :
    Written ⟨.string, Glyph.encode body⟩ (.char '"' :: body ++ [.char '"']) := by
  refine ⟨?_, fun rest _ => .string rest h⟩
  intro g hg
  simp only [List.cons_append, List.mem_cons, List.mem_append, List.not_mem_nil, or_false] at hg
  rcases hg with rfl | hg | rfl
  · rfl
  · exact Glyph.isChar_of_isStringPart (h g hg)
  · rfl

theorem written_operator (o : Operator) : Written ⟨.operator o, o.spelling⟩ o.glyphs := by
  refine ⟨by cases o <;> decide, ?_⟩
  intro rest hrest
  refine .operator o fun hext hhead => ?_
  have hstop : (o.isExtensible && decide (Glyph.char '=' = .char '=')) = false := hrest _ hhead
  rw [hext] at hstop
  cases hstop

theorem Keyword.isWord_spelling (k : Keyword) :
    Glyph.isWord (Glyph.decode k.spelling) = true := by
  cases k <;> decide

/-- Every well-formed lexeme but the end of the input can be written. -/
theorem exists_written {l : Lexeme} (h : l.isWellFormed = true) (hk : l.kind ≠ .eof) :
    ∃ taken, Written l taken := by
  obtain ⟨kind, text⟩ := l
  have hdecode := Glyph.encode_decode text
  cases kind with
  | unknown => cases h
  | unassigned extra => cases h
  | eof => contradiction
  | newline =>
    obtain rfl : text = bytes "\n" := of_decide_eq_true h
    exact ⟨[.char '\n'], by decide, fun rest _ => .newline rest⟩
  | number => exact ⟨_, written_numeral h⟩
  | name =>
    obtain ⟨hword, hfree⟩ := Bool.and_eq_true_iff.1 h
    have hw := written_word hword
    rw [hdecode, Kind.ofWord, Option.isNone_iff_eq_none.1 hfree] at hw
    exact ⟨_, hw⟩
  | string =>
    have hw := written_string (List.all_eq_true.1 h)
    rw [hdecode] at hw
    exact ⟨_, hw⟩
  | keyword k =>
    obtain rfl : text = k.spelling := of_decide_eq_true h
    have hw := written_word k.isWord_spelling
    rw [hdecode, Kind.ofWord, Keyword.ofSpelling?_spelling] at hw
    exact ⟨_, hw⟩
  | operator o =>
    obtain rfl : text = o.spelling := of_decide_eq_true h
    exact ⟨_, written_operator o⟩

/-- A lexeme that is spelled at the start of a text, and could not be longer there, is read from
it. -/
theorem reads_of_spelled {l : Lexeme} {rest : Bytes} (hform : l.HasForm)
    (hrest : Stops l.isExtendedBy rest) (heof : l.kind = .eof → rest = []) :
    ∃ taken, Reads l taken (Glyph.decode rest) ∧
      Glyph.decode (l.written ++ rest) = taken ++ Glyph.decode rest := by
  by_cases hk : l.kind = .eof
  · obtain ⟨kind, text⟩ := l
    obtain rfl : kind = .eof := hk
    obtain rfl : text = [] := hform
    rw [heof rfl]
    exact ⟨[], .eof, rfl⟩
  · obtain ⟨taken, hwritten⟩ := exists_written (Lexeme.hasForm_iff.1 hform) hk
    have hreads := hwritten.reads _ (Lexeme.stops_extending_iff.2 hrest)
    refine ⟨taken, hreads, ?_⟩
    rw [← hreads.encode_eq, Glyph.decode_encode_append rest hwritten.chars]

/-- A lexeme that is read from a text is spelled at the start of it, and could not be longer. -/
theorem spelled_of_reads {l : Lexeme} {taken : List Glyph} {rest : Bytes}
    (h : Reads l taken (Glyph.decode rest)) :
    l.HasForm ∧ Glyph.encode taken = l.written ∧ Stops l.isExtendedBy rest :=
  ⟨Lexeme.hasForm_iff.2 h.isWellFormed, h.encode_eq, Lexeme.stops_extending_iff.1 h.stops⟩

end Teeny
