import Teeny.Text.Bytes

/-!
# Characters of a byte string

A byte string is read as UTF-8. Where it is no UTF-8, each byte of the malformed sequence stands
for itself, so every byte string has a reading and no byte is lost. A `Glyph` is one unit of that
reading, a character or a stray byte; columns, widths and quotations count glyphs.
-/

namespace Teeny

/-- One unit of a text: a character, or a byte that belongs to no character. -/
inductive Glyph where
  | char (c : Char)
  | stray (b : UInt8)
  deriving DecidableEq

namespace Glyph

/-- The bytes that a glyph was read from. -/
def bytes : Glyph → Bytes
  | char c => String.utf8EncodeChar c
  | stray b => [b]

/-- The character that is shown for a glyph: a stray byte is shown as U+FFFD. -/
def shown : Glyph → Char
  | char c => c
  | stray _ => '\uFFFD'

/-- What a continuation byte adds to the code of its character. -/
def continuation? (b : UInt8) : Option Nat :=
  if 0x80 ≤ b.toNat ∧ b.toNat < 0xC0 then some (b.toNat - 0x80) else none

/-- The character with code `n`, if there is one and no shorter sequence encodes it: `least` is the
smallest code that needs a sequence of this length. -/
def scalar? (least n : Nat) : Option Char :=
  if n.isValidChar ∧ least ≤ n then some (Char.ofNat n) else none

/-- The character that the byte `b` starts, and how many of the following bytes belong to it. -/
def leading? (b : UInt8) (following : Bytes) : Option (Char × Nat) :=
  if b.toNat < 0x80 then do
    let c ← scalar? 0 b.toNat
    return (c, 0)
  else if b.toNat < 0xC0 then
    none
  else if b.toNat < 0xE0 then
    match following with
    | b₁ :: _ => do
      let x ← continuation? b₁
      let c ← scalar? 0x80 ((b.toNat - 0xC0) * 0x40 + x)
      return (c, 1)
    | _ => none
  else if b.toNat < 0xF0 then
    match following with
    | b₁ :: b₂ :: _ => do
      let x ← continuation? b₁
      let y ← continuation? b₂
      let c ← scalar? 0x800 (((b.toNat - 0xE0) * 0x40 + x) * 0x40 + y)
      return (c, 2)
    | _ => none
  else if b.toNat < 0xF8 then
    match following with
    | b₁ :: b₂ :: b₃ :: _ => do
      let x ← continuation? b₁
      let y ← continuation? b₂
      let z ← continuation? b₃
      let c ← scalar? 0x10000 ((((b.toNat - 0xF0) * 0x40 + x) * 0x40 + y) * 0x40 + z)
      return (c, 3)
    | _ => none
  else
    none

/-- The glyphs of a text of which the first `skip` bytes belong to a glyph already read. -/
def decodeFrom : Nat → Bytes → List Glyph
  | _, [] => []
  | skip + 1, _ :: rest => decodeFrom skip rest
  | 0, b :: rest =>
    match leading? b rest with
    | some (c, more) => char c :: decodeFrom more rest
    | none => stray b :: decodeFrom 0 rest

/-- The glyphs of a text, in order. -/
def decode (text : Bytes) : List Glyph := decodeFrom 0 text

/-- The bytes of a sequence of glyphs. -/
def encode (glyphs : List Glyph) : Bytes := glyphs.flatMap bytes

@[simp] theorem encode_nil : encode [] = [] := rfl

@[simp] theorem encode_cons (g : Glyph) (gs : List Glyph) :
    encode (g :: gs) = g.bytes ++ encode gs := rfl

@[simp] theorem encode_append (gs hs : List Glyph) :
    encode (gs ++ hs) = encode gs ++ encode hs := by
  simp [encode]

/-- Skipping is dropping. -/
theorem decodeFrom_eq_drop (skip : Nat) (text : Bytes) :
    decodeFrom skip text = decode (text.drop skip) := by
  induction skip generalizing text with
  | zero => rfl
  | succ skip ih =>
    cases text with
    | nil => rfl
    | cons b rest => simpa [decodeFrom] using ih rest

theorem continuation?_eq_some {b : UInt8} {x : Nat} (h : continuation? b = some x) :
    b = UInt8.ofNat (x + 128) ∧ x < 64 := by
  unfold continuation? at h
  split at h
  · obtain rfl := Option.some.inj h
    refine ⟨?_, by omega⟩
    rw [show b.toNat - 0x80 + 128 = b.toNat by omega]
    exact (UInt8.ofNat_toNat).symm
  · contradiction

theorem toNat_val_ofNat {n : Nat} (h : n.isValidChar) : (Char.ofNat n).val.toNat = n := by
  unfold Char.ofNat
  rw [dif_pos h]
  rfl

theorem scalar?_eq_some {least n : Nat} {c : Char} (h : scalar? least n = some c) :
    c.val.toNat = n ∧ least ≤ n ∧ n < 0x110000 := by
  unfold scalar? at h
  split at h
  · rename_i hn
    obtain rfl := Option.some.inj h
    refine ⟨toNat_val_ofNat hn.1, hn.2, ?_⟩
    rcases hn.1 with hv | hv <;> omega
  · contradiction

theorem encode_one {c : Char} {k : Nat} (hv : c.val.toNat = k) (hk : k < 0x80) :
    String.utf8EncodeChar c = [UInt8.ofNat k] := by
  simp only [String.utf8EncodeChar, hv]
  rw [if_pos (by omega)]

theorem encode_two {c : Char} {k x : Nat} (hv : c.val.toNat = k * 0x40 + x) (hk : k < 32)
    (hx : x < 64) (hleast : 0x80 ≤ k * 0x40 + x) :
    String.utf8EncodeChar c = [UInt8.ofNat (k + 192), UInt8.ofNat (x + 128)] := by
  simp only [String.utf8EncodeChar, hv]
  rw [if_neg (by omega), if_pos (by omega), show (k * 0x40 + x) / 64 % 32 = k by omega,
    show (k * 0x40 + x) % 64 = x by omega]

theorem encode_three {c : Char} {k x y : Nat} (hv : c.val.toNat = (k * 0x40 + x) * 0x40 + y)
    (hk : k < 16) (hx : x < 64) (hy : y < 64) (hleast : 0x800 ≤ (k * 0x40 + x) * 0x40 + y) :
    String.utf8EncodeChar c =
      [UInt8.ofNat (k + 224), UInt8.ofNat (x + 128), UInt8.ofNat (y + 128)] := by
  simp only [String.utf8EncodeChar, hv]
  rw [if_neg (by omega), if_neg (by omega), if_pos (by omega),
    show ((k * 0x40 + x) * 0x40 + y) / 4096 % 16 = k by omega,
    show ((k * 0x40 + x) * 0x40 + y) / 64 % 64 = x by omega,
    show ((k * 0x40 + x) * 0x40 + y) % 64 = y by omega]

theorem encode_four {c : Char} {k x y z : Nat}
    (hv : c.val.toNat = ((k * 0x40 + x) * 0x40 + y) * 0x40 + z) (hk : k < 8) (hx : x < 64)
    (hy : y < 64) (hz : z < 64) (hleast : 0x10000 ≤ ((k * 0x40 + x) * 0x40 + y) * 0x40 + z) :
    String.utf8EncodeChar c =
      [UInt8.ofNat (k + 240), UInt8.ofNat (x + 128), UInt8.ofNat (y + 128),
        UInt8.ofNat (z + 128)] := by
  simp only [String.utf8EncodeChar, hv]
  rw [if_neg (by omega), if_neg (by omega), if_neg (by omega),
    show (((k * 0x40 + x) * 0x40 + y) * 0x40 + z) / 262144 % 8 = k by omega,
    show (((k * 0x40 + x) * 0x40 + y) * 0x40 + z) / 4096 % 64 = x by omega,
    show (((k * 0x40 + x) * 0x40 + y) * 0x40 + z) / 64 % 64 = y by omega,
    show (((k * 0x40 + x) * 0x40 + y) * 0x40 + z) % 64 = z by omega]

/-- A byte is its distance from a smaller one, added to it. -/
theorem ofNat_sub_add {b : UInt8} {base : Nat} (h : base ≤ b.toNat) :
    UInt8.ofNat (b.toNat - base + base) = b := by
  rw [Nat.sub_add_cancel h, UInt8.ofNat_toNat]

/-- A character read from a text has the bytes it was read from. -/
theorem utf8EncodeChar_of_leading? {b : UInt8} {following : Bytes} {c : Char} {more : Nat}
    (h : leading? b following = some (c, more)) :
    String.utf8EncodeChar c = b :: following.take more := by
  unfold leading? at h
  split at h
  · obtain ⟨_, hc, h⟩ := Option.bind_eq_some_iff.1 h
    obtain ⟨rfl, rfl⟩ := Prod.mk.inj (Option.some.inj h)
    rw [encode_one (scalar?_eq_some hc).1 (by omega), UInt8.ofNat_toNat, List.take_zero]
  · split at h
    · contradiction
    · split at h
      · split at h
        · obtain ⟨x, hx, h⟩ := Option.bind_eq_some_iff.1 h
          obtain ⟨_, hc, h⟩ := Option.bind_eq_some_iff.1 h
          obtain ⟨rfl, rfl⟩ := Prod.mk.inj (Option.some.inj h)
          obtain ⟨rfl, hx'⟩ := continuation?_eq_some hx
          obtain ⟨hv, hleast, -⟩ := scalar?_eq_some hc
          rw [encode_two hv (by omega) hx' hleast, ofNat_sub_add (by omega)]
          rfl
        · contradiction
      · split at h
        · split at h
          · obtain ⟨x, hx, h⟩ := Option.bind_eq_some_iff.1 h
            obtain ⟨y, hy, h⟩ := Option.bind_eq_some_iff.1 h
            obtain ⟨_, hc, h⟩ := Option.bind_eq_some_iff.1 h
            obtain ⟨rfl, rfl⟩ := Prod.mk.inj (Option.some.inj h)
            obtain ⟨rfl, hx'⟩ := continuation?_eq_some hx
            obtain ⟨rfl, hy'⟩ := continuation?_eq_some hy
            obtain ⟨hv, hleast, -⟩ := scalar?_eq_some hc
            rw [encode_three hv (by omega) hx' hy' hleast, ofNat_sub_add (by omega)]
            rfl
          · contradiction
        · split at h
          · split at h
            · obtain ⟨x, hx, h⟩ := Option.bind_eq_some_iff.1 h
              obtain ⟨y, hy, h⟩ := Option.bind_eq_some_iff.1 h
              obtain ⟨z, hz, h⟩ := Option.bind_eq_some_iff.1 h
              obtain ⟨_, hc, h⟩ := Option.bind_eq_some_iff.1 h
              obtain ⟨rfl, rfl⟩ := Prod.mk.inj (Option.some.inj h)
              obtain ⟨rfl, hx'⟩ := continuation?_eq_some hx
              obtain ⟨rfl, hy'⟩ := continuation?_eq_some hy
              obtain ⟨rfl, hz'⟩ := continuation?_eq_some hz
              obtain ⟨hv, hleast, -⟩ := scalar?_eq_some hc
              rw [encode_four hv (by omega) hx' hy' hz' hleast, ofNat_sub_add (by omega)]
              rfl
            · contradiction
          · contradiction

/-- Reading a text as glyphs loses nothing. -/
theorem encode_decodeFrom (skip : Nat) (text : Bytes) :
    encode (decodeFrom skip text) = text.drop skip := by
  induction text generalizing skip with
  | nil => simp [decodeFrom]
  | cons b rest ih =>
    cases skip with
    | succ skip => simpa [decodeFrom] using ih skip
    | zero =>
      rw [decodeFrom]
      split
      · rename_i c more h
        rw [encode_cons, ih more, bytes, utf8EncodeChar_of_leading? h]
        simp
      · rw [encode_cons, ih 0, bytes]
        simp

/-- The bytes of the glyphs of a text are the text. -/
theorem encode_decode (text : Bytes) : encode (decode text) = text :=
  encode_decodeFrom 0 text

end Glyph

end Teeny
