import Teeny.Proofs.Text.Numerals
import Teeny.Text.JsonString

/-!
# JSON texts

The grammar of JSON: which texts stand for which values (`Json.IsDocument`). A text may have blanks
around its values, a character of a string may be written as it is or in up to two other ways, and a
character beyond the first plane may be written as the code of two halves, so a value has many
texts. But a text has one value only (`IsDocument.unique`): from the left, the first byte decides
what kind of value stands there, and what may follow decides where it ends (`Spells.unique`).
Whoever reads such a text as JSON thus comes to the same value.
-/

namespace Teeny

/-- A value of JSON. A number is kept as it is written, the members of an object in their order, and
a string is the bytes of its characters. -/
inductive Json where
  | null
  | bool (b : Bool)
  | number (numeral : Bytes)
  | string (text : Bytes)
  | array (items : List Json)
  | object (members : List (Bytes × Json))

namespace Json

/-! ## The grammar -/

/-- Whether a byte may stand around values: a space, a tab, a newline, a carriage return. -/
def isSpace (b : UInt8) : Bool := b = 32 || b = 9 || b = 10 || b = 13

/-- Whether a text may stand around values. -/
def IsSpace (text : Bytes) : Prop := ∀ b ∈ text, isSpace b = true

/-- The digits in front of the point: a zero, or digits of which the first is none. -/
def IsWhole (text : Bytes) : Prop :=
  text = bytes "0" ∨ Bytes.isDigits text = true ∧ text.head? ≠ some 48

/-- The point and the digits behind it, if there are any. -/
def IsFraction (text : Bytes) : Prop :=
  text = [] ∨ ∃ digits, Bytes.isDigits digits = true ∧ text = bytes "." ++ digits

/-- The power of ten, if there is one. -/
def IsExponent (text : Bytes) : Prop :=
  text = [] ∨ ∃ mark sign digits, (mark = bytes "e" ∨ mark = bytes "E") ∧
    (sign = [] ∨ sign = bytes "+" ∨ sign = bytes "-") ∧ Bytes.isDigits digits = true ∧
    text = mark ++ sign ++ digits

/-- Whether a text is a number. -/
def IsNumber (text : Bytes) : Prop :=
  ∃ sign whole fraction exponent, (sign = [] ∨ sign = bytes "-") ∧ IsWhole whole ∧
    IsFraction fraction ∧ IsExponent exponent ∧ text = sign ++ whole ++ fraction ++ exponent

/-- Whether a byte stands for itself in a string: it is neither a quote nor a backslash nor a
control character. -/
def isPlain (b : UInt8) : Bool := b ≠ 34 && b ≠ 92 && 32 ≤ b

/-- The byte that a letter stands for behind a backslash. -/
def escaped? : UInt8 → Option UInt8
  | 34 => some 34
  | 92 => some 92
  | 47 => some 47
  | 98 => some 8
  | 102 => some 12
  | 110 => some 10
  | 114 => some 13
  | 116 => some 9
  | _ => none

/-- A part of a string. -/
inductive Symbol where
  /-- A byte that stands for itself. -/
  | plain (b : UInt8) (h : isPlain b = true)
  /-- A backslash and a letter. -/
  | escape (letter b : UInt8) (h : escaped? letter = some b)
  /-- A backslash, the letter `u` and four hexadecimal digits. -/
  | code (digits : Bytes) (h : digits.length = 4 ∧ ∀ b ∈ digits, Bytes.isHexDigit b = true)

namespace Symbol

/-- The text of a part. -/
def text : Symbol → Bytes
  | plain b _ => [b]
  | escape letter _ _ => [92, letter]
  | code digits _ => 92 :: 117 :: digits

/-- Whether a code is the first half of a character beyond the first plane. -/
def isHigh (n : Nat) : Bool := 0xD800 ≤ n && n < 0xDC00

/-- Whether a code is the second half of such a character. -/
def isLow (n : Nat) : Bool := 0xDC00 ≤ n && n < 0xE000

/-- The character with a code of four digits; half a character is none. -/
def single (n : Nat) : Char := if isHigh n || isLow n then '�' else Char.ofNat n

/-- The character with the two halves. -/
def joined (high low : Nat) : Char :=
  Char.ofNat (0x10000 + (high - 0xD800) * 0x400 + (low - 0xDC00))

/-- What a sequence of parts stands for. -/
def meaning : List Symbol → Bytes
  | [] => []
  | plain b _ :: rest => b :: meaning rest
  | escape _ b _ :: rest => b :: meaning rest
  | code high _ :: code low h :: rest =>
    if isHigh (Bytes.ofHex high) && isLow (Bytes.ofHex low) then
      String.utf8EncodeChar (joined (Bytes.ofHex high) (Bytes.ofHex low)) ++ meaning rest
    else String.utf8EncodeChar (single (Bytes.ofHex high)) ++ meaning (code low h :: rest)
  | code digits _ :: rest => String.utf8EncodeChar (single (Bytes.ofHex digits)) ++ meaning rest

end Symbol

/-- Whether a text, quotes included, is a string with the given meaning. -/
def IsString (text value : Bytes) : Prop :=
  ∃ symbols : List Symbol, text = bytes "\"" ++ symbols.flatMap Symbol.text ++ bytes "\"" ∧
    value = Symbol.meaning symbols

/-- What stands between two commas. -/
inductive Entry where
  /-- An item of an array. -/
  | item (v : Json)
  /-- A member of an object. -/
  | member (key : Bytes) (v : Json)

/-- A part of a JSON text. -/
inductive Part where
  | value (v : Json)
  /-- A value or a member with blanks around it. -/
  | entry (e : Entry)
  /-- Everything between two brackets. -/
  | entries (es : List Entry)

/-- Whether a text stands for a part. -/
inductive Spells : Part → Bytes → Prop where
  | null : Spells (.value .null) (bytes "null")
  | true : Spells (.value (.bool true)) (bytes "true")
  | false : Spells (.value (.bool false)) (bytes "false")
  | number {t : Bytes} (h : IsNumber t) : Spells (.value (.number t)) t
  | string {t s : Bytes} (h : IsString t s) : Spells (.value (.string s)) t
  | array {vs : List Json} {t : Bytes} (h : Spells (.entries (vs.map .item)) t) :
    Spells (.value (.array vs)) (bytes "[" ++ t ++ bytes "]")
  | object {ms : List (Bytes × Json)} {t : Bytes}
    (h : Spells (.entries (ms.map fun m => .member m.1 m.2)) t) :
    Spells (.value (.object ms)) (bytes "\x7b" ++ t ++ bytes "\x7d")
  | item {v : Json} {a t b : Bytes} (ha : IsSpace a) (h : Spells (.value v) t) (hb : IsSpace b) :
    Spells (.entry (.item v)) (a ++ t ++ b)
  | member {key : Bytes} {v : Json} {a k b t : Bytes} (ha : IsSpace a) (hk : IsString k key)
    (hb : IsSpace b) (h : Spells (.entry (.item v)) t) :
    Spells (.entry (.member key v)) (a ++ k ++ b ++ bytes ":" ++ t)
  | none {s : Bytes} (h : IsSpace s) : Spells (.entries []) s
  | one {e : Entry} {t : Bytes} (h : Spells (.entry e) t) : Spells (.entries [e]) t
  | more {e e' : Entry} {es : List Entry} {t ts : Bytes} (h : Spells (.entry e) t)
    (hs : Spells (.entries (e' :: es)) ts) :
    Spells (.entries (e :: e' :: es)) (t ++ bytes "," ++ ts)

/-- Whether a text is a JSON text with the given value: it is encoded as UTF-8, and it is the value
with blanks around it. -/
structure IsDocument (text : Bytes) (v : Json) : Prop where
  encoded : Bytes.IsEncoded text
  spells : Spells (.entry (.item v)) text

/-! ## Numbers and strings end where they end -/

/-- Whether a byte may stand in a number. -/
def isNumberPart (b : UInt8) : Bool :=
  Bytes.isDigit b || b = 45 || b = 43 || b = 46 || b = 101 || b = 69

theorem isNumberPart_of_isDigits {ds : Bytes} (h : Bytes.isDigits ds = true) :
    ds.all isNumberPart = true := by
  refine List.all_eq_true.2 fun b hb => ?_
  simp [isNumberPart, (Bytes.isDigits_iff.1 h).2 b hb]

theorem isNumberPart_of_isNumber {t : Bytes} (h : IsNumber t) : ∀ b ∈ t, isNumberPart b = true := by
  obtain ⟨sign, whole, fraction, exponent, hsign, hwhole, hfraction, hexponent, rfl⟩ := h
  have hsigns : sign.all isNumberPart = true := by
    rcases hsign with rfl | rfl <;> rfl
  have hwholes : whole.all isNumberPart = true := by
    rcases hwhole with rfl | ⟨hdigits, -⟩
    · rfl
    · exact isNumberPart_of_isDigits hdigits
  have hfractions : fraction.all isNumberPart = true := by
    rcases hfraction with rfl | ⟨digits, hdigits, rfl⟩
    · rfl
    · rw [List.all_append, isNumberPart_of_isDigits hdigits]
      rfl
  have hexponents : exponent.all isNumberPart = true := by
    rcases hexponent with rfl | ⟨mark, sign', digits, hmark, hsign', hdigits, rfl⟩
    · rfl
    · rw [List.all_append, List.all_append, isNumberPart_of_isDigits hdigits]
      rcases hmark with rfl | rfl <;> rcases hsign' with rfl | rfl | rfl <;> rfl
  rw [← List.all_eq_true, List.all_append, List.all_append, List.all_append, hsigns, hwholes,
    hfractions, hexponents]
  rfl

/-- Two numbers end at the same place, where nothing follows that could go on with them. -/
theorem IsNumber.unique {t t' r r' : Bytes} (h : IsNumber t) (h' : IsNumber t')
    (hr : Stops isNumberPart r) (hr' : Stops isNumberPart r') (he : t ++ r = t' ++ r') :
    t = t' ∧ r = r' :=
  run_inj (isNumberPart_of_isNumber h) (isNumberPart_of_isNumber h') hr hr' he

namespace Symbol

/-- The parts of a string are read back one by one. -/
theorem text_append_inj (a b : Symbol) (rest rest' : Bytes) (h : a.text ++ rest = b.text ++ rest') :
    a = b ∧ rest = rest' := by
  cases a with
  | plain x hx =>
    cases b with
    | plain y hy =>
      obtain ⟨rfl, hrest⟩ := List.cons.inj h
      exact ⟨rfl, hrest⟩
    | escape y b hy =>
      obtain ⟨rfl, -⟩ := List.cons.inj h
      cases hx
    | code ds hds =>
      obtain ⟨rfl, -⟩ := List.cons.inj h
      cases hx
  | escape x a hx =>
    cases b with
    | plain y hy =>
      obtain ⟨rfl, -⟩ := List.cons.inj h
      cases hy
    | escape y b hy =>
      obtain ⟨-, htail⟩ := List.cons.inj h
      obtain ⟨rfl, hrest⟩ := List.cons.inj htail
      obtain rfl : a = b := Option.some.inj (hx.symm.trans hy)
      exact ⟨rfl, hrest⟩
    | code ds hds =>
      obtain ⟨-, htail⟩ := List.cons.inj h
      obtain ⟨rfl, -⟩ := List.cons.inj htail
      cases hx
  | code ds hds =>
    cases b with
    | plain y hy =>
      obtain ⟨rfl, -⟩ := List.cons.inj h
      cases hy
    | escape y b hy =>
      obtain ⟨-, htail⟩ := List.cons.inj h
      obtain ⟨rfl, -⟩ := List.cons.inj htail
      cases hy
    | code ds' hds' =>
      obtain ⟨-, htail⟩ := List.cons.inj h
      obtain ⟨-, hdigits⟩ := List.cons.inj htail
      obtain ⟨rfl, hrest⟩ := List.append_inj hdigits (hds.1.trans hds'.1.symm)
      exact ⟨rfl, hrest⟩

/-- No part of a string starts with the quote that ends it. -/
theorem head?_text_append_ne (a : Symbol) (rest : Bytes) : (a.text ++ rest).head? ≠ some 34 := by
  cases a with
  | plain b hb =>
    rintro ⟨⟩
    cases hb
  | escape letter b h => rintro ⟨⟩
  | code ds hds => rintro ⟨⟩

end Symbol

/-- A string ends at its second bare quote. -/
theorem IsString.unique {t t' s s' r r' : Bytes} (h : IsString t s) (h' : IsString t' s')
    (he : t ++ r = t' ++ r') : s = s' ∧ t = t' ∧ r = r' := by
  obtain ⟨symbols, rfl, rfl⟩ := h
  obtain ⟨symbols', rfl, rfl⟩ := h'
  simp only [List.append_assoc] at he
  obtain ⟨rfl, hrest⟩ := flatMap_inj (fun _ => True) (fun rest => rest.head? = some 34)
    (fun a b rest rest' _ _ => Symbol.text_append_inj a b rest rest') (fun _ _ => trivial)
    (fun _ _ => trivial) (fun a rest => Symbol.head?_text_append_ne a rest) rfl rfl
    (List.append_cancel_left he)
  exact ⟨rfl, rfl, List.append_cancel_left hrest⟩

/-! ## What a text starts with -/

/-- What the first byte of a value says about it. -/
inductive Shape where
  | null
  | true
  | false
  | number
  | string
  | array
  | object

/-- The shape of the values that start with a byte. -/
def Shape.ofByte? (b : UInt8) : Option Shape :=
  if b = 110 then some null
  else if b = 116 then some true
  else if b = 102 then some false
  else if b = 45 || Bytes.isDigit b then some number
  else if b = 34 then some string
  else if b = 91 then some array
  else if b = 123 then some object
  else none

/-- The shape of a value. -/
def shape : Json → Shape
  | null => .null
  | bool b => if b then .true else .false
  | number _ => .number
  | string _ => .string
  | array _ => .array
  | object _ => .object

theorem ofByte?_of_isDigit (b : UInt8) : Bytes.isDigit b = true →
    Shape.ofByte? b = some .number := by
  intro h
  have hb := Bytes.isDigit_iff.1 h
  have hne : ∀ n : UInt8, 57 < n.toNat → b ≠ n := by
    rintro n hn rfl
    omega
  simp [Shape.ofByte?, h, hne 110 (by decide), hne 116 (by decide), hne 102 (by decide)]

theorem IsNumber.shape {t : Bytes} (h : IsNumber t) :
    ∃ b rest, t = b :: rest ∧ Shape.ofByte? b = some .number := by
  obtain ⟨sign, whole, fraction, exponent, hsign, hwhole, -, -, rfl⟩ := h
  rcases hsign with rfl | rfl
  · rcases hwhole with rfl | ⟨hdigits, -⟩
    · exact ⟨_, _, rfl, rfl⟩
    · obtain ⟨hne, hall⟩ := Bytes.isDigits_iff.1 hdigits
      obtain ⟨b, ds, rfl⟩ := List.exists_cons_of_ne_nil hne
      exact ⟨b, _, rfl, ofByte?_of_isDigit b (hall b List.mem_cons_self)⟩
  · exact ⟨_, _, rfl, rfl⟩

theorem IsString.shape {t s : Bytes} (h : IsString t s) :
    ∃ b rest, t = b :: rest ∧ Shape.ofByte? b = some .string := by
  obtain ⟨symbols, rfl, -⟩ := h
  exact ⟨_, _, rfl, rfl⟩

/-- The first byte of a value tells its shape. -/
theorem Spells.shape {v : Json} {t : Bytes} (h : Spells (.value v) t) :
    ∃ b rest, t = b :: rest ∧ Shape.ofByte? b = some v.shape := by
  cases h with
  | null => exact ⟨_, _, rfl, rfl⟩
  | true => exact ⟨_, _, rfl, rfl⟩
  | false => exact ⟨_, _, rfl, rfl⟩
  | number h => exact h.shape
  | string h => exact h.shape
  | array _ => exact ⟨_, _, rfl, rfl⟩
  | object _ => exact ⟨_, _, rfl, rfl⟩

theorem Spells.shape_eq {v v' : Json} {t t' r r' : Bytes} (h : Spells (.value v) t)
    (h' : Spells (.value v') t') (he : t ++ r = t' ++ r') : v.shape = v'.shape := by
  obtain ⟨b, rest, rfl, hb⟩ := h.shape
  obtain ⟨b', rest', rfl, hb'⟩ := h'.shape
  obtain ⟨rfl, -⟩ := List.cons.inj he
  exact Option.some.inj (hb.symm.trans hb')

theorem eq_of_isSpace {b : UInt8} (h : isSpace b = true) : b = 32 ∨ b = 9 ∨ b = 10 ∨ b = 13 := by
  simpa only [isSpace, Bool.or_eq_true, decide_eq_true_eq, or_assoc] using h

theorem stops_isSpace_of_shape {t : Bytes} {s : Shape} (r : Bytes)
    (h : ∃ b rest, t = b :: rest ∧ Shape.ofByte? b = some s) : Stops isSpace (t ++ r) := by
  obtain ⟨b, rest, rfl, hb⟩ := h
  refine stops_cons.2 (Bool.eq_false_iff.2 fun hspace => ?_)
  rcases eq_of_isSpace hspace with rfl | rfl | rfl | rfl <;> cases hb

/-! ## One text, one value -/

/-- The three sorts of parts. -/
inductive Level where
  | value
  | entry
  | entries

def Part.level : Part → Level
  | value _ => .value
  | entry _ => .entry
  | entries _ => .entries

/-- Whether a byte cannot stand right behind a part: a number would go on with it, or no comma and
no closing bracket ends an entry there. -/
def Level.goesOn : Level → UInt8 → Bool
  | value, b => isNumberPart b
  | entry, b => !(b = 44 || b = 93 || b = 125)
  | entries, b => !(b = 93 || b = 125)

theorem eq_of_ends_entry {b : UInt8} (h : Level.goesOn .entry b = false) :
    b = 44 ∨ b = 93 ∨ b = 125 := by
  simpa only [Level.goesOn, Bool.not_eq_false', Bool.or_eq_true, decide_eq_true_eq, or_assoc]
    using h

theorem eq_of_ends_entries {b : UInt8} (h : Level.goesOn .entries b = false) :
    b = 93 ∨ b = 125 := by
  simpa only [Level.goesOn, Bool.not_eq_false', Bool.or_eq_true, decide_eq_true_eq] using h

theorem stops_of_entries {r : Bytes} (h : Stops Level.entries.goesOn r) :
    Stops Level.entry.goesOn r := by
  intro b hb
  rcases eq_of_ends_entries (h b hb) with rfl | rfl <;> rfl

theorem stops_isSpace_of_entry {r : Bytes} (h : Stops Level.entry.goesOn r) : Stops isSpace r := by
  intro b hb
  rcases eq_of_ends_entry (h b hb) with rfl | rfl | rfl <;> rfl

/-- Blanks, and then what ends an entry or the colon behind a key, do not go on with a number. -/
theorem stops_value_of_space {s r : Bytes} (hs : IsSpace s)
    (hr : ∀ b ∈ r.head?, b = 58 ∨ Level.goesOn .entry b = false) :
    Stops Level.value.goesOn (s ++ r) := by
  cases s with
  | nil =>
    intro b hb
    rcases (hr b hb).imp_right eq_of_ends_entry with rfl | rfl | rfl | rfl <;> rfl
  | cons b s =>
    refine stops_cons.2 ?_
    rcases eq_of_isSpace (hs b List.mem_cons_self) with rfl | rfl | rfl | rfl <;> rfl

/-- A value that starts like a string is that string. -/
theorem IsString.unique_value {v : Json} {k key t r r' : Bytes} (h : IsString k key)
    (h' : Spells (.value v) t) (he : k ++ r = t ++ r') : v = .string key ∧ t = k ∧ r = r' := by
  have hshape := (Spells.string h).shape_eq h' he
  cases h' with
  | string h' =>
    obtain ⟨rfl, rfl, hr⟩ := h.unique h' he
    exact ⟨rfl, rfl, hr⟩
  | _ => cases hshape

/-- An entry with a key is no value, since no value has a colon behind it. -/
theorem member_ne_item {v : Json} {a k key b t a' t' b' r r' : Bytes} (ha : IsSpace a)
    (hk : IsString k key) (hb : IsSpace b) (ha' : IsSpace a') (h' : Spells (.value v) t')
    (hb' : IsSpace b') (hr' : Stops Level.entry.goesOn r') :
    a ++ k ++ b ++ bytes ":" ++ t ++ r ≠ a' ++ t' ++ b' ++ r' := by
  intro he
  simp only [List.append_assoc] at he
  obtain ⟨-, hkey⟩ := run_inj ha ha' (stops_isSpace_of_shape _ hk.shape)
    (stops_isSpace_of_shape _ h'.shape) he
  obtain ⟨-, -, hspace⟩ := hk.unique_value h' hkey
  -- the value is the key, so what ends its entry would be the colon
  obtain ⟨-, rfl⟩ := run_inj hb hb' (stops_append rfl rfl _) (stops_isSpace_of_entry hr') hspace
  cases hr' 58 rfl

/-- An entry starts, behind blanks, with something that ends no entries. -/
theorem entry_ne_space {e : Entry} {t s r r' : Bytes} (h : Spells (.entry e) t)
    (hs : IsSpace s) (hr' : Stops Level.entries.goesOn r') : t ++ r ≠ s ++ r' := by
  -- both kinds of entries start with a value, be it the key
  have hstart : ∃ a b rest shape, IsSpace a ∧ t = a ++ (b :: rest) ∧
      Shape.ofByte? b = some shape := by
    cases h with
    | item ha h hb =>
      obtain ⟨b, rest, rfl, hshape⟩ := h.shape
      exact ⟨_, b, _, _, ha, List.append_assoc _ _ _, hshape⟩
    | member ha hk hb h =>
      obtain ⟨b, rest, rfl, hshape⟩ := hk.shape
      exact ⟨_, b, _, _, ha, by simp only [List.append_assoc, List.cons_append]; rfl, hshape⟩
  obtain ⟨a, b, rest, shape, ha, rfl, hshape⟩ := hstart
  intro he
  rw [List.append_assoc] at he
  obtain ⟨-, rfl⟩ := run_inj ha hs (stops_isSpace_of_shape r ⟨b, rest, rfl, hshape⟩)
    (stops_isSpace_of_entry (stops_of_entries hr')) he
  rcases eq_of_ends_entries (stops_cons.1 hr') with rfl | rfl <;> cases hshape

/-- Whether nothing but `p` is spelled by `t`, and `t` ends where it ends, in front of any rest that
does not go on with it. -/
def Determined (p : Part) (t : Bytes) : Prop :=
  ∀ p' t' r r', Spells p' t' → p'.level = p.level → Stops p.level.goesOn r →
    Stops p.level.goesOn r' → t ++ r = t' ++ r' → p = p' ∧ t = t' ∧ r = r'

/-- For a value it is enough to look at values of its shape. -/
theorem determined_value {v : Json} {t : Bytes} (h : Spells (.value v) t)
    (hsame : ∀ v' t' r r', Spells (.value v') t' → v.shape = v'.shape →
      Stops isNumberPart r → Stops isNumberPart r' → t ++ r = t' ++ r' →
      v = v' ∧ t = t' ∧ r = r') : Determined (.value v) t := by
  intro p' t' r r' h' hlevel hr hr' he
  cases p' with
  | value v' =>
    obtain ⟨rfl, ht⟩ := hsame v' t' r r' h' (h.shape_eq h' he) hr hr' he
    exact ⟨rfl, ht⟩
  | entry e => cases hlevel
  | entries es => cases hlevel

namespace Determined

variable {v : Json} {a b t s : Bytes}

theorem null : Determined (.value .null) (bytes "null") := by
  refine determined_value .null fun v' t' r r' h' hshape _ _ he => ?_
  cases h' with
  | null => exact ⟨rfl, rfl, List.append_cancel_left he⟩
  | _ => cases hshape

theorem true : Determined (.value (.bool Bool.true)) (bytes "true") := by
  refine determined_value .true fun v' t' r r' h' hshape _ _ he => ?_
  cases h' with
  | true => exact ⟨rfl, rfl, List.append_cancel_left he⟩
  | _ => cases hshape

theorem false : Determined (.value (.bool Bool.false)) (bytes "false") := by
  refine determined_value .false fun v' t' r r' h' hshape _ _ he => ?_
  cases h' with
  | false => exact ⟨rfl, rfl, List.append_cancel_left he⟩
  | _ => cases hshape

theorem number (hn : IsNumber t) : Determined (.value (.number t)) t := by
  refine determined_value (.number hn) fun v' t' r r' h' hshape hr hr' he => ?_
  cases h' with
  | number hn' =>
    obtain ⟨rfl, hrest⟩ := hn.unique hn' hr hr' he
    exact ⟨rfl, rfl, hrest⟩
  | _ => cases hshape

theorem string (hs : IsString t s) : Determined (.value (.string s)) t := by
  refine determined_value (.string hs) fun v' t' r r' h' _ _ _ he => ?_
  obtain ⟨rfl, rfl, hrest⟩ := hs.unique_value h' he
  exact ⟨rfl, rfl, hrest⟩

theorem array {vs : List Json} (h : Spells (.entries (vs.map .item)) t)
    (hd : Determined (.entries (vs.map .item)) t) :
    Determined (.value (.array vs)) (bytes "[" ++ t ++ bytes "]") := by
  refine determined_value (.array h) fun v' t' r r' h' hshape _ _ he => ?_
  cases h' with
  | array h' =>
    simp only [List.append_assoc] at he
    obtain ⟨hes, rfl, hrest⟩ := hd _ _ _ _ h' rfl (stops_append rfl rfl _) (stops_append rfl rfl _)
      (List.append_cancel_left he)
    have hvs := (List.map_inj_right fun _ _ => Entry.item.inj).1 (Part.entries.inj hes)
    exact ⟨congrArg Json.array hvs, rfl, List.append_cancel_left hrest⟩
  | _ => cases hshape

theorem object {ms : List (Bytes × Json)}
    (h : Spells (.entries (ms.map fun m => .member m.1 m.2)) t)
    (hd : Determined (.entries (ms.map fun m => .member m.1 m.2)) t) :
    Determined (.value (.object ms)) (bytes "\x7b" ++ t ++ bytes "\x7d") := by
  refine determined_value (.object h) fun v' t' r r' h' hshape _ _ he => ?_
  cases h' with
  | object h' =>
    simp only [List.append_assoc] at he
    obtain ⟨hes, rfl, hrest⟩ := hd _ _ _ _ h' rfl (stops_append rfl rfl _) (stops_append rfl rfl _)
      (List.append_cancel_left he)
    have hms := (List.map_inj_right fun m m' hm =>
      Prod.ext (Entry.member.inj hm).1 (Entry.member.inj hm).2).1 (Part.entries.inj hes)
    exact ⟨congrArg Json.object hms, rfl, List.append_cancel_left hrest⟩
  | _ => cases hshape

theorem item (ha : IsSpace a) (h : Spells (.value v) t) (hb : IsSpace b)
    (hd : Determined (.value v) t) : Determined (.entry (.item v)) (a ++ t ++ b) := by
  intro p' t' r r' h' hlevel hr hr' he
  cases h' with
  | item ha' h' hb' =>
    simp only [List.append_assoc] at he
    obtain ⟨rfl, hvalue⟩ := run_inj ha ha' (stops_isSpace_of_shape _ h.shape)
      (stops_isSpace_of_shape _ h'.shape) he
    obtain ⟨hv, rfl, hspace⟩ := hd _ _ _ _ h' rfl
      (stops_value_of_space hb fun b hb => .inr (hr b hb))
      (stops_value_of_space hb' fun b hb => .inr (hr' b hb)) hvalue
    obtain ⟨rfl, hrest⟩ := run_inj hb hb' (stops_isSpace_of_entry hr)
      (stops_isSpace_of_entry hr') hspace
    cases hv
    exact ⟨rfl, rfl, hrest⟩
  | member ha' hk' hb' h' => exact absurd he.symm (member_ne_item ha' hk' hb' ha h hb hr)
  | _ => cases hlevel

theorem member {k key : Bytes} (ha : IsSpace a) (hk : IsString k key) (hb : IsSpace b)
    (hd : Determined (.entry (.item v)) t) :
    Determined (.entry (.member key v)) (a ++ k ++ b ++ bytes ":" ++ t) := by
  intro p' t' r r' h' hlevel hr hr' he
  cases h' with
  | item ha' h' hb' => exact absurd he (member_ne_item ha hk hb ha' h' hb' hr')
  | member ha' hk' hb' h' =>
    simp only [List.append_assoc] at he
    obtain ⟨rfl, hkey⟩ := run_inj ha ha' (stops_isSpace_of_shape _ hk.shape)
      (stops_isSpace_of_shape _ hk'.shape) he
    obtain ⟨rfl, rfl, hspace⟩ := hk.unique hk' hkey
    obtain ⟨rfl, hcolon⟩ := run_inj hb hb' (stops_append rfl rfl _) (stops_append rfl rfl _) hspace
    obtain ⟨hv, rfl, hrest⟩ := hd _ _ _ _ h' rfl hr hr' (List.append_cancel_left hcolon)
    cases hv
    exact ⟨rfl, rfl, hrest⟩
  | _ => cases hlevel

theorem none (hs : IsSpace s) : Determined (.entries []) s := by
  intro p' t' r r' h' hlevel hr hr' he
  cases h' with
  | none hs' =>
    obtain ⟨rfl, hrest⟩ := run_inj hs hs' (stops_isSpace_of_entry (stops_of_entries hr))
      (stops_isSpace_of_entry (stops_of_entries hr')) he
    exact ⟨rfl, rfl, hrest⟩
  | one h' => exact absurd he.symm (entry_ne_space h' hs hr)
  | more h' hs' =>
    simp only [List.append_assoc] at he
    exact absurd he.symm (entry_ne_space h' hs hr)
  | _ => cases hlevel

theorem one {e : Entry} (h : Spells (.entry e) t) (hd : Determined (.entry e) t) :
    Determined (.entries [e]) t := by
  intro p' t' r r' h' hlevel hr hr' he
  cases h' with
  | none hs' => exact absurd he (entry_ne_space h hs' hr')
  | one h' =>
    obtain ⟨hv, rfl, hrest⟩ := hd _ _ _ _ h' rfl (stops_of_entries hr) (stops_of_entries hr') he
    cases hv
    exact ⟨rfl, rfl, hrest⟩
  | more h' hs' =>
    -- the comma would have to stand in what ends the entries
    simp only [List.append_assoc] at he
    obtain ⟨-, -, rfl⟩ := hd _ _ _ _ h' rfl (stops_of_entries hr) (stops_append rfl rfl _) he
    cases hr 44 rfl
  | _ => cases hlevel

theorem more {e e' : Entry} {es : List Entry} {ts : Bytes} (h : Spells (.entry e) t)
    (hd : Determined (.entry e) t) (hds : Determined (.entries (e' :: es)) ts) :
    Determined (.entries (e :: e' :: es)) (t ++ bytes "," ++ ts) := by
  intro p' t' r r' h' hlevel hr hr' he
  simp only [List.append_assoc] at he
  cases h' with
  | none hs' => exact absurd he (entry_ne_space h hs' hr')
  | one h' =>
    obtain ⟨-, -, rfl⟩ := hd _ _ _ _ h' rfl (stops_append rfl rfl _) (stops_of_entries hr') he
    cases hr' 44 rfl
  | more h' hs' =>
    simp only [List.append_assoc] at he
    obtain ⟨hv, rfl, hcomma⟩ := hd _ _ _ _ h' rfl (stops_append rfl rfl _)
      (stops_append rfl rfl _) he
    obtain ⟨hvs, rfl, hrest⟩ := hds _ _ _ _ hs' rfl hr hr' (List.append_cancel_left hcomma)
    cases hv
    cases hvs
    exact ⟨rfl, rfl, hrest⟩
  | _ => cases hlevel

end Determined

/-- Every text is read in one way only. -/
theorem Spells.determined {p : Part} {t : Bytes} (h : Spells p t) : Determined p t := by
  induction h with
  | null => exact .null
  | true => exact .true
  | false => exact .false
  | number h => exact .number h
  | string h => exact .string h
  | array h ih => exact .array h ih
  | object h ih => exact .object h ih
  | item ha h hb ih => exact .item ha h hb ih
  | member ha hk hb _ ih => exact .member ha hk hb ih
  | none h => exact .none h
  | one h ih => exact .one h ih
  | more h _ ih ihs => exact .more h ih ihs

/-- A JSON text has one value. -/
theorem IsDocument.unique {text : Bytes} {v v' : Json} (h : IsDocument text v)
    (h' : IsDocument text v') : v = v' := by
  obtain ⟨hv, -⟩ := h.spells.determined _ _ [] [] h'.spells rfl stops_nil stops_nil rfl
  cases hv
  rfl

/-! ## Texts as strings -/

namespace Symbol

/-- Whether a text is made of parts that stand for `value`, whatever parts follow. -/
def Writes (text value : Bytes) : Prop :=
  ∃ symbols : List Symbol, symbols.flatMap Symbol.text = text ∧
    ∀ rest, meaning (symbols ++ rest) = value ++ meaning rest

theorem writes_nil : Writes [] [] := ⟨[], rfl, fun _ => rfl⟩

theorem Writes.append {text text' value value' : Bytes} (h : Writes text value)
    (h' : Writes text' value') : Writes (text ++ text') (value ++ value') := by
  obtain ⟨symbols, rfl, hmeaning⟩ := h
  obtain ⟨symbols', rfl, hmeaning'⟩ := h'
  refine ⟨symbols ++ symbols', List.flatMap_append, fun rest => ?_⟩
  rw [List.append_assoc, hmeaning, hmeaning', List.append_assoc]

theorem writes_escape {letter b : UInt8} (h : escaped? letter = some b) :
    Writes [92, letter] [b] :=
  ⟨[.escape letter b h], rfl, fun _ => rfl⟩

theorem writes_plain {text : Bytes} (h : ∀ b ∈ text, isPlain b = true) : Writes text text := by
  induction text with
  | nil => exact writes_nil
  | cons b text ih =>
    obtain ⟨hb, htext⟩ := List.forall_mem_cons.1 h
    have hhead : Writes [b] [b] := ⟨[.plain b hb], rfl, fun _ => rfl⟩
    exact hhead.append (ih htext)

/-- A code that is no half of a character is read by itself. -/
theorem meaning_code {digits : Bytes}
    (h : digits.length = 4 ∧ ∀ b ∈ digits, Bytes.isHexDigit b = true)
    (hhigh : isHigh (Bytes.ofHex digits) = false) (rest : List Symbol) :
    meaning (.code digits h :: rest) =
      String.utf8EncodeChar (single (Bytes.ofHex digits)) ++ meaning rest := by
  cases rest with
  | nil => rfl
  | cons symbol rest =>
    cases symbol with
    | code low hlow =>
      rw [meaning, hhigh]
      rfl
    | _ => rfl

/-- A character below the halves may be written by its code. -/
theorem writes_code {c : Char} (h : c.toNat < 0xD800) :
    Writes (JsonString.code c) (String.utf8EncodeChar c) := by
  have hnumber : Bytes.ofHex (Bytes.hex 4 c.toNat) = c.toNat := Bytes.ofHex_hex_four (by omega)
  have hhigh : isHigh c.toNat = false :=
    Bool.and_eq_false_iff.2 (.inl (decide_eq_false (by omega)))
  have hlow : isLow c.toNat = false :=
    Bool.and_eq_false_iff.2 (.inl (decide_eq_false (by omega)))
  refine ⟨[.code (Bytes.hex 4 c.toNat) ⟨Bytes.length_hex _ _, Bytes.isHexDigit_of_mem_hex⟩],
    List.flatMap_singleton _ _, fun rest => ?_⟩
  rw [List.singleton_append, meaning_code _ (by rw [hnumber, hhigh]), hnumber, single, hhigh, hlow,
    Char.ofNat_toNat]
  rfl

/-- The bytes of a character stand for themselves where the character does. -/
theorem isPlain_of_mem_utf8EncodeChar {c : Char} (hquote : c.toNat ≠ 34) (hbackslash : c.toNat ≠ 92)
    (hcontrol : 32 ≤ c.toNat) : ∀ b ∈ String.utf8EncodeChar c, isPlain b = true := by
  intro b hb
  have hplain : b.toNat ≠ 34 ∧ b.toNat ≠ 92 ∧ 32 ≤ b.toNat → isPlain b = true := by
    rintro ⟨hquote, hbackslash, hcontrol⟩
    simp only [isPlain, Bool.and_eq_true, decide_eq_true_eq]
    exact ⟨⟨fun h => hquote (h ▸ rfl), fun h => hbackslash (h ▸ rfl)⟩,
      UInt8.le_iff_toNat_le.2 hcontrol⟩
  apply hplain
  by_cases hascii : b.toNat < 0x80
  · rw [← Glyph.mem_utf8EncodeChar_ascii hb hascii]
    exact ⟨hquote, hbackslash, hcontrol⟩
  · omega

/-- A character is written by a letter, by its code or as it is. -/
theorem character_cases (c : Char) :
    (∃ letter b, escaped? letter = some b ∧ JsonString.character c = [92, letter] ∧
      String.utf8EncodeChar c = [b]) ∨
    JsonString.character c = JsonString.code c ∧ c.toNat < 0xD800 ∨
    JsonString.character c = String.utf8EncodeChar c ∧
      ∀ b ∈ String.utf8EncodeChar c, isPlain b = true := by
  unfold JsonString.character
  split
  next h => exact .inl ⟨34, 34, rfl, rfl, h ▸ rfl⟩
  next hquote =>
  split
  next h => exact .inl ⟨92, 92, rfl, rfl, h ▸ rfl⟩
  next hbackslash =>
  split
  next h => exact .inl ⟨110, 10, rfl, rfl, h ▸ rfl⟩
  next =>
  split
  next h => exact .inl ⟨114, 13, rfl, rfl, h ▸ rfl⟩
  next =>
  split
  next h => exact .inl ⟨116, 9, rfl, rfl, h ▸ rfl⟩
  next =>
  split
  next hcode =>
    refine .inr (.inl ⟨rfl, ?_⟩)
    simp only [JsonString.isReserved, Bool.or_eq_true, decide_eq_true_eq] at hcode
    rcases hcode with h | (((rfl | rfl) | rfl) | h) | h
    · omega
    · decide
    · decide
    · decide
    · omega
    · omega
  next hcode =>
    have hcontrol : ¬ c.toNat < 32 := fun h => hcode (by simp [h])
    have hne : ∀ d : Char, c ≠ d → c.toNat ≠ d.toNat := fun d hd h => hd (Char.toNat_inj.1 h)
    exact .inr (.inr ⟨rfl, isPlain_of_mem_utf8EncodeChar (hne '"' hquote) (hne '\\' hbackslash)
      (Nat.not_lt.1 hcontrol)⟩)

/-- A character as it is written in a string stands for itself. -/
theorem writes_character (c : Char) :
    Writes (JsonString.character c) (String.utf8EncodeChar c) := by
  rcases character_cases c with ⟨letter, b, h, htext, hbyte⟩ | ⟨htext, hc⟩ | ⟨htext, hplain⟩
  · rw [htext, hbyte]
    exact writes_escape h
  · rw [htext]
    exact writes_code hc
  · rw [htext]
    exact writes_plain hplain

end Symbol

/-- The text of a string is a string with that meaning. -/
theorem isString_text {text : Bytes} (h : Bytes.IsEncoded text) :
    IsString (JsonString.text text) text := by
  obtain ⟨s, rfl⟩ := h
  have hchars : ∀ cs : List Char, Symbol.Writes ((cs.map Glyph.char).flatMap JsonString.glyph)
      (cs.flatMap String.utf8EncodeChar) := by
    intro cs
    induction cs with
    | nil => exact Symbol.writes_nil
    | cons c cs ih => exact (Symbol.writes_character c).append ih
  obtain ⟨symbols, htext, hmeaning⟩ := hchars s.toList
  refine ⟨symbols, ?_, ?_⟩
  · rw [JsonString.text, Bytes.decode_bytes, htext]
  · have hall := hmeaning []
    rw [List.append_nil, Symbol.meaning, List.append_nil] at hall
    exact hall.symm

theorem isEncoded_code (c : Char) : Bytes.IsEncoded (JsonString.code c) :=
  (Bytes.isEncoded_bytes "\\u").append (Bytes.isEncoded_of_ascii fun b hb => by
    have hb := Bytes.toNat_of_isHexDigit (Bytes.isHexDigit_of_mem_hex b hb)
    omega)

theorem isEncoded_glyph (g : Glyph) : Bytes.IsEncoded (JsonString.glyph g) := by
  have hletter : ∀ letter, (escaped? letter).isSome = true → letter.toNat < 0x80 :=
    Glyph.forall_byte (by decide +kernel)
  cases g with
  | stray b => exact isEncoded_code _
  | char c =>
    show Bytes.IsEncoded (JsonString.character c)
    rcases Symbol.character_cases c with ⟨letter, b, h, htext, -⟩ | ⟨htext, -⟩ | ⟨htext, -⟩
    · rw [htext]
      refine Bytes.isEncoded_of_ascii (List.forall_mem_cons.2
        ⟨by decide, List.forall_mem_singleton.2 (hletter letter ?_)⟩)
      rw [h]
      rfl
    · rw [htext]
      exact isEncoded_code c
    · rw [htext]
      exact Bytes.isEncoded_utf8EncodeChar c

theorem isEncoded_text (text : Bytes) : Bytes.IsEncoded (JsonString.text text) :=
  ((Bytes.isEncoded_bytes "\"").append (Bytes.isEncoded_flatMap isEncoded_glyph _)).append
    (Bytes.isEncoded_bytes "\"")

end Json

end Teeny
