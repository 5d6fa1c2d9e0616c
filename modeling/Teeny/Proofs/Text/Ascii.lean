import Teeny.Proofs.Text.ReadBack
import Teeny.Token.Scan

/-!
# Bytes that are characters of their own

A byte below 128 is a character by itself wherever it stands: it starts one (`decode_cons_ascii`),
and a sequence of several bytes neither holds one nor reaches across one (`decode_append_ascii`),
not even a sequence that breaks off. So a text may be cut in front of such a byte and both parts be
read by themselves.

The classes of glyphs that a scan looks for hold characters of ASCII only. For each there is a class
of bytes, and whether a text goes on with a class can be asked of its bytes as well as of its
glyphs (`stops_decode_iff`).
-/

namespace Teeny

namespace Glyph

/-- Whether a glyph is a character of ASCII. -/
def isAscii : Glyph → Bool
  | char c => c.val.toNat < 0x80
  | stray _ => false

/-! ## Reading a byte of ASCII -/

theorem bytes_ofByte {b : UInt8} (h : b.toNat < 0x80) : (ofByte b).bytes = [b] := by
  have hval : (Char.ofNat b.toNat).val.toNat = b.toNat := by
    apply toNat_val_ofNat
    left
    omega
  rw [ofByte, bytes, encode_one hval h, UInt8.ofNat_toNat]

theorem exists_ofByte {g : Glyph} (h : g.isAscii = true) :
    ∃ b : UInt8, b.toNat < 0x80 ∧ g = ofByte b := by
  cases g with
  | stray b => cases h
  | char c =>
    have hc : c.val.toNat < 0x80 := of_decide_eq_true h
    have hb : (UInt8.ofNat c.val.toNat).toNat = c.val.toNat := toNat_ofNat_of_lt (by omega)
    refine ⟨UInt8.ofNat c.val.toNat, by omega, ?_⟩
    rw [ofByte, hb]
    exact congrArg char (Char.ofNat_toNat c).symm

/-- Characters of ASCII have one byte each. -/
theorem map_ofByte_encode {gs : List Glyph} (h : ∀ g ∈ gs, g.isAscii = true) :
    (encode gs).map ofByte = gs := by
  induction gs with
  | nil => rfl
  | cons g gs ih =>
    obtain ⟨hg, hgs⟩ := List.forall_mem_cons.1 h
    obtain ⟨b, hb, rfl⟩ := exists_ofByte hg
    rw [encode_cons, bytes_ofByte hb, List.singleton_append, List.map_cons, ih hgs]

theorem encode_map_ofByte {text : Bytes} (h : ∀ b ∈ text, b.toNat < 0x80) :
    encode (text.map ofByte) = text := by
  induction text with
  | nil => rfl
  | cons b text ih =>
    obtain ⟨hb, htext⟩ := List.forall_mem_cons.1 h
    rw [List.map_cons, encode_cons, bytes_ofByte hb, ih htext]
    rfl

/-- A text of ASCII is read byte by byte, whatever follows it. -/
theorem decode_ascii_append {text : Bytes} (h : ∀ b ∈ text, b.toNat < 0x80) (rest : Bytes) :
    decode (text ++ rest) = text.map ofByte ++ decode rest := by
  have hchars : ∀ g ∈ text.map ofByte, g.isChar = true := by
    intro g hg
    obtain ⟨b, -, rfl⟩ := List.mem_map.1 hg
    rfl
  have hread := decode_encode_append rest hchars
  rwa [encode_map_ofByte h] at hread

theorem decode_cons_ascii {b : UInt8} (h : b.toNat < 0x80) (rest : Bytes) :
    decode (b :: rest) = ofByte b :: decode rest :=
  @decode_ascii_append [b] (List.forall_mem_singleton.2 h) rest

/-! ## Cutting a text in front of a byte of ASCII -/

/-- A text starts with a character exactly if it starts with the bytes of the character. -/
theorem leading?_eq_some_iff {a : UInt8} {following : Bytes} {c : Char} {more : Nat} :
    leading? a following = some (c, more) ↔
      ∃ tail rest, following = tail ++ rest ∧ String.utf8EncodeChar c = a :: tail ∧
        more = tail.length := by
  have hreads : ∀ tail rest, String.utf8EncodeChar c = a :: tail →
      leading? a (tail ++ rest) = some (c, tail.length) := by
    intro tail rest hc
    obtain ⟨a', tail', hc', hlead⟩ := leading?_utf8EncodeChar c rest
    rw [hc] at hc'
    obtain ⟨rfl, rfl⟩ := List.cons.inj hc'
    exact hlead
  constructor
  · intro h
    have hc := utf8EncodeChar_of_leading? h
    have hagain := hreads _ (following.drop more) hc
    rw [List.take_append_drop, h] at hagain
    exact ⟨_, _, (List.take_append_drop more following).symm, hc,
      (Prod.mk.inj (Option.some.inj hagain)).2⟩
  · intro h
    obtain ⟨tail, rest, rfl, hc, rfl⟩ := h
    exact hreads tail rest hc

/-- No byte of ASCII stands behind the first byte of a character. -/
theorem not_mem_tail_ascii {c : Char} {a b : UInt8} {tail : Bytes}
    (hc : String.utf8EncodeChar c = a :: tail) (hb : b.toNat < 0x80) : b ∉ tail := by
  intro hmem
  have hval : c.val.toNat = b.toNat := by
    apply mem_utf8EncodeChar_ascii _ hb
    rw [hc]
    exact List.mem_cons_of_mem a hmem
  rw [encode_one hval hb] at hc
  cases hc
  cases hmem

theorem leading?_append_ascii (a : UInt8) (following : Bytes) {b : UInt8} (hb : b.toNat < 0x80)
    (rest : Bytes) : leading? a (following ++ b :: rest) = leading? a following := by
  refine Option.ext fun r => ?_
  obtain ⟨c, more⟩ := r
  rw [leading?_eq_some_iff, leading?_eq_some_iff]
  constructor
  · intro h
    obtain ⟨tail, rest', hsplit, hc, hmore⟩ := h
    -- the bytes of the character end before `b`, which is none of them
    rcases List.append_eq_append_iff.1 hsplit with ⟨extra, rfl, hextra⟩ | ⟨extra, rfl, -⟩
    · cases extra with
      | nil => exact ⟨_, [], by simp, hc, hmore⟩
      | cons e extra =>
        obtain ⟨rfl, -⟩ := List.cons.inj hextra
        exact absurd (List.mem_append_right _ (List.mem_cons_self ..)) (not_mem_tail_ascii hc hb)
    · exact ⟨tail, extra, rfl, hc, hmore⟩
  · intro h
    obtain ⟨tail, rest', rfl, hc, hmore⟩ := h
    exact ⟨tail, rest' ++ b :: rest, by simp, hc, hmore⟩

theorem decodeFrom_append_ascii {skip : Nat} {text : Bytes} {b : UInt8} (hb : b.toNat < 0x80)
    (hskip : skip ≤ text.length) (rest : Bytes) :
    decodeFrom skip (text ++ b :: rest) = decodeFrom skip text ++ decode (b :: rest) := by
  induction text generalizing skip with
  | nil =>
    obtain rfl : skip = 0 := Nat.le_zero.1 hskip
    rfl
  | cons a text ih =>
    cases skip with
    | succ skip => exact ih (Nat.le_of_succ_le_succ hskip)
    | zero =>
      rw [List.cons_append, decodeFrom, decodeFrom, leading?_append_ascii a text hb]
      cases hlead : leading? a text with
      | none => exact congrArg (stray a :: ·) (ih (Nat.zero_le _))
      | some r =>
        obtain ⟨c, more⟩ := r
        have hmore : more ≤ text.length := by
          obtain ⟨tail, rest', rfl, -, rfl⟩ := leading?_eq_some_iff.1 hlead
          simp
        exact congrArg (char c :: ·) (ih hmore)

/-- In front of a byte of ASCII a text can be cut, and both parts are read by themselves. -/
theorem decode_append_ascii (text : Bytes) {b : UInt8} (hb : b.toNat < 0x80) (rest : Bytes) :
    decode (text ++ b :: rest) = decode text ++ decode (b :: rest) :=
  decodeFrom_append_ascii hb (Nat.zero_le _) rest

/-- What is left behind some glyphs of a text is the reading of a text as well. -/
theorem decode_encode_of_append {text : Bytes} {gs hs : List Glyph}
    (h : decode text = gs ++ hs) : decode (encode hs) = hs := by
  have hread : ∃ rest, decode rest = hs := by
    induction gs generalizing text with
    | nil => exact ⟨text, h⟩
    | cons g gs ih =>
      cases text with
      | nil => cases h
      | cons a text =>
        rw [decode, decodeFrom] at h
        split at h
        next c more hlead =>
          rw [decodeFrom_eq_drop] at h
          exact ih (List.cons.inj h).2
        next => exact ih (List.cons.inj h).2
  obtain ⟨rest, rfl⟩ := hread
  rw [encode_decode]

/-- Some glyphs at the start of a text are the reading of their own bytes: what comes behind them
does not make them what they are. -/
theorem decode_encode_front {text : Bytes} {gs hs : List Glyph}
    (h : decode text = gs ++ hs) : decode (encode gs) = gs := by
  induction gs generalizing text with
  | nil => rfl
  | cons g gs ih =>
    cases text with
    | nil => cases h
    | cons a text =>
      rw [decode, decodeFrom, List.cons_append] at h
      split at h
      next c more hlead =>
        rw [decodeFrom_eq_drop] at h
        obtain ⟨rfl, hgs⟩ := List.cons.inj h
        rw [← List.singleton_append, encode_append,
          decode_encode_append _ (List.forall_mem_singleton.2 rfl), ih hgs]
      next hlead =>
        obtain ⟨rfl, hgs⟩ := List.cons.inj h
        -- fewer bytes behind a stray byte do not make a character of it
        have hstray : leading? a (encode gs) = none := by
          rw [Option.eq_none_iff_forall_not_mem]
          intro r hr
          obtain ⟨tail, rest, hsplit, hc, hmore⟩ := leading?_eq_some_iff.1 hr
          have hagain : leading? a text = some r := by
            refine leading?_eq_some_iff.2 ⟨tail, rest ++ encode hs, ?_, hc, hmore⟩
            rw [← encode_decode text, decode, hgs, encode_append, hsplit, List.append_assoc]
          rw [hlead] at hagain
          cases hagain
        rw [encode_cons, bytes, List.singleton_append, decode, decodeFrom, hstray]
        exact congrArg (stray a :: ·) (ih hgs)

/-- A glyph of a text that holds a byte of ASCII is that byte. -/
theorem eq_ofByte_of_mem {text : Bytes} {g : Glyph} {b : UInt8} (hg : g ∈ decode text)
    (hmem : b ∈ g.bytes) (hb : b.toNat < 0x80) : g = ofByte b := by
  cases g with
  | char c =>
    have hval := mem_utf8EncodeChar_ascii hmem hb
    rw [ofByte, ← hval]
    exact congrArg char (Char.ofNat_toNat c).symm
  | stray a =>
    -- a stray byte of ASCII would be read as a character
    obtain rfl : b = a := List.mem_singleton.1 hmem
    obtain ⟨before, after, hsplit⟩ := List.append_of_mem hg
    have hread := decode_encode_of_append hsplit
    rw [encode_cons, bytes, List.singleton_append, decode_cons_ascii hb] at hread
    exact ((List.cons.inj hread).1).symm

/-! ## Classes of ASCII -/

theorem toNat_lt_of_isAscii {b : UInt8} (h : (ofByte b).isAscii = true) : b.toNat < 0x80 := by
  have hval : (Char.ofNat b.toNat).val.toNat = b.toNat := by
    apply toNat_val_ofNat
    left
    have := b.toNat_lt
    omega
  have hlt : (Char.ofNat b.toNat).val.toNat < 0x80 := of_decide_eq_true h
  omega

theorem isAscii_of_isLetter {g : Glyph} (h : g.isLetter = true) : g.isAscii = true := by
  cases g with
  | stray b => cases h
  | char c =>
    refine decide_eq_true ?_
    rcases Bool.or_eq_true_iff.1 (show (c.isUpper || c.isLower) = true from h) with h | h
    · have hle : c.val ≤ 'Z'.val := (of_decide_eq_true h).2
      exact Nat.lt_of_le_of_lt (UInt32.le_iff_toNat_le.1 hle) (by decide)
    · have hle : c.val ≤ 'z'.val := of_decide_eq_true (Bool.and_eq_true_iff.1 h).2
      exact Nat.lt_of_le_of_lt (UInt32.le_iff_toNat_le.1 hle) (by decide)

theorem isAscii_of_isDigit {g : Glyph} (h : g.isDigit = true) : g.isAscii = true := by
  cases g with
  | stray b => cases h
  | char c =>
    have hle : c.val ≤ '9'.val := of_decide_eq_true (Bool.and_eq_true_iff.1 h).2
    exact decide_eq_true (Nat.lt_of_le_of_lt (UInt32.le_iff_toNat_le.1 hle) (by decide))

theorem isAscii_of_isWordPart {g : Glyph} (h : g.isWordPart = true) : g.isAscii = true := by
  rcases Bool.or_eq_true_iff.1 h with h | h
  · exact isAscii_of_isLetter h
  · exact isAscii_of_isDigit h

/-- A text whose glyphs are of ASCII is read byte by byte. -/
theorem ascii_of_decode {text : Bytes} (h : ∀ g ∈ decode text, g.isAscii = true) :
    ∀ b ∈ text, b.toNat < 0x80 := by
  intro b hb
  have hmap := map_ofByte_encode h
  rw [encode_decode] at hmap
  apply toNat_lt_of_isAscii
  apply h
  rw [← hmap]
  exact List.mem_map_of_mem hb

theorem decode_of_ascii {text : Bytes} (h : ∀ b ∈ text, b.toNat < 0x80) :
    decode text = text.map ofByte := by
  have hread := decode_ascii_append h []
  rw [List.append_nil] at hread
  exact hread.trans (List.append_nil _)

/-- Whether a text goes on with a class of ASCII can be asked of its glyphs and of its bytes. -/
theorem stops_decode_iff {p : Glyph → Bool} (hp : ∀ g, p g = true → g.isAscii = true)
    {text : Bytes} : Stops p (decode text) ↔ Stops (fun b => p (ofByte b)) text := by
  cases text with
  | nil => simp [Stops, decode, decodeFrom]
  | cons b rest =>
    by_cases hb : b.toNat < 0x80
    · rw [decode_cons_ascii hb, stops_cons, stops_cons]
    · -- then neither the byte nor the glyph that it starts is of the class
      have hbyte : p (ofByte b) = false :=
        Bool.eq_false_iff.2 fun h => hb (toNat_lt_of_isAscii (hp _ h))
      refine ⟨fun _ => stops_cons.2 hbyte, fun _ => ?_⟩
      intro g hg
      refine Bool.eq_false_iff.2 fun h => hb ?_
      obtain ⟨gs, hgs⟩ := List.head?_eq_some_iff.1 hg
      obtain ⟨b', hb', rfl⟩ := exists_ofByte (hp g h)
      have htext := encode_decode (b :: rest)
      rw [hgs, encode_cons, bytes_ofByte hb'] at htext
      obtain ⟨rfl, -⟩ := List.cons.inj htext
      exact hb'

end Glyph

end Teeny
