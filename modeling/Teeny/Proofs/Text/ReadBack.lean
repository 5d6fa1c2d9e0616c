import Teeny.Text.Glyph

/-!
# Reading back runs and characters

Two facts about texts that are joined and then taken apart again.

A run is a longest stretch of elements of one class. Where the element behind it is of another
class (`Stops`), the run is found again (`takeWhile_run`), and two ways to split a list into such a
run and a rest are the same (`run_inj`). Pieces that are each read back are read back in a row
(`flatMap_inj`), and so are lines (`Bytes.splitOn_flatMap_line`).

`Glyph.encode_decode` says that the glyphs of a text have the bytes of the text. Here is the other
half, for glyphs that are characters: their bytes are read as the same characters again, whatever
follows (`decode_encode_append`). A stray byte has no such law, since several of them may join into
a character.
-/

namespace Teeny

/-! ## Runs -/

section Runs

variable {α : Type} {p : α → Bool}

/-- Whether a list does not go on with an element of the class `p`. -/
def Stops (p : α → Bool) (rest : List α) : Prop := ∀ a ∈ rest.head?, p a = false

theorem stops_nil : Stops p [] := by
  intro a ha
  cases ha

theorem stops_cons {a : α} {rest : List α} : Stops p (a :: rest) ↔ p a = false := by
  simp [Stops]

theorem takeWhile_run {run rest : List α} (hrun : ∀ a ∈ run, p a = true) (hrest : Stops p rest) :
    (run ++ rest).takeWhile p = run := by
  rw [List.takeWhile_append_of_pos hrun]
  cases rest with
  | nil => simp
  | cons a rest => simp [stops_cons.1 hrest]

theorem drop_length_takeWhile (l : List α) : l.drop (l.takeWhile p).length = l.dropWhile p := by
  have h := List.takeWhile_append_dropWhile (p := p) (l := l)
  have hd : (l.takeWhile p ++ l.dropWhile p).drop (l.takeWhile p).length = l.dropWhile p :=
    List.drop_left
  rwa [h] at hd

theorem stops_dropWhile (l : List α) : Stops p (l.dropWhile p) := by
  intro a ha
  have h := List.head?_dropWhile_not p l
  rw [Option.mem_def.1 ha] at h
  simpa using h

theorem of_mem_takeWhile {l : List α} {a : α} (h : a ∈ l.takeWhile p) : p a = true :=
  List.all_eq_true.1 List.all_takeWhile a h

/-- A list splits in at most one way into a run and a rest that does not go on with it. -/
theorem run_inj {run run' rest rest' : List α} (hrun : ∀ a ∈ run, p a = true)
    (hrun' : ∀ a ∈ run', p a = true) (hrest : Stops p rest) (hrest' : Stops p rest')
    (h : run ++ rest = run' ++ rest') : run = run' ∧ rest = rest' := by
  have he : run = run' := by
    rw [← takeWhile_run hrun hrest, h, takeWhile_run hrun' hrest']
  subst he
  exact ⟨rfl, List.append_cancel_left h⟩

/-- The same from the other end: a list splits in at most one way into a rest and a run behind
it. -/
theorem run_inj_right {run run' rest rest' : List α} (hrun : ∀ a ∈ run, p a = true)
    (hrun' : ∀ a ∈ run', p a = true) (hrest : Stops p rest.reverse)
    (hrest' : Stops p rest'.reverse) (h : rest ++ run = rest' ++ run') :
    rest = rest' ∧ run = run' := by
  have hreverse : run.reverse ++ rest.reverse = run'.reverse ++ rest'.reverse := by
    rw [← List.reverse_append, h, List.reverse_append]
  obtain ⟨hruns, hrests⟩ := run_inj (fun a ha => hrun a (List.mem_reverse.1 ha))
    (fun a ha => hrun' a (List.mem_reverse.1 ha)) hrest hrest' hreverse
  exact ⟨List.reverse_inj.1 hrests, List.reverse_inj.1 hruns⟩

theorem dropWhile_run {run rest : List α} (hrun : ∀ a ∈ run, p a = true) (hrest : Stops p rest) :
    (run ++ rest).dropWhile p = rest := by
  rw [← drop_length_takeWhile, takeWhile_run hrun hrest, List.drop_left]

/-- What a list starts with decides whether a run goes on there. -/
theorem stops_append {l : List α} {a : α} (h : l.head? = some a) (ha : p a = false)
    (rest : List α) : Stops p (l ++ rest) := by
  cases l with
  | nil => cases h
  | cons b l =>
    cases h
    exact stops_cons.2 ha

end Runs

/-! ## Pieces in a row -/

section Pieces

variable {α β : Type} {f : α → List β} {follows ends : List β → Prop}

/-- Pieces and a rest start with a piece, or are the rest. -/
theorem flatMap_append_of (hpiece : ∀ a rest, follows (f a ++ rest))
    (hends : ∀ rest, ends rest → follows rest) (l : List α) {rest : List β} (hrest : ends rest) :
    follows (l.flatMap f ++ rest) := by
  cases l with
  | nil => exact hends rest hrest
  | cons a l =>
    rw [List.flatMap_cons, List.append_assoc]
    exact hpiece a _

/-- Pieces in a row are read back one by one, if each is, up to a rest that no piece starts like.
What may stand behind a piece, `follows`, is another piece or such a rest, `ends`. -/
theorem flatMap_inj (follows ends : List β → Prop)
    (hinj : ∀ a b rest rest', follows rest → follows rest' → f a ++ rest = f b ++ rest' →
      a = b ∧ rest = rest')
    (hpiece : ∀ a rest, follows (f a ++ rest)) (hends : ∀ rest, ends rest → follows rest)
    (hother : ∀ a rest, ¬ ends (f a ++ rest)) {l l' : List α} {rest rest' : List β}
    (hrest : ends rest) (hrest' : ends rest')
    (h : l.flatMap f ++ rest = l'.flatMap f ++ rest') : l = l' ∧ rest = rest' := by
  induction l generalizing l' with
  | nil =>
    cases l' with
    | nil => exact ⟨rfl, h⟩
    | cons b l' =>
      rw [List.flatMap_cons, List.append_assoc] at h
      rw [show rest = _ from h] at hrest
      exact absurd hrest (hother b _)
  | cons a l ih =>
    cases l' with
    | nil =>
      rw [List.flatMap_cons, List.append_assoc] at h
      rw [show rest' = _ from h.symm] at hrest'
      exact absurd hrest' (hother a _)
    | cons b l' =>
      rw [List.flatMap_cons, List.flatMap_cons, List.append_assoc, List.append_assoc] at h
      obtain ⟨rfl, htail⟩ := hinj a b _ _ (flatMap_append_of hpiece hends l hrest)
        (flatMap_append_of hpiece hends l' hrest') h
      obtain ⟨rfl, hrests⟩ := ih htail
      exact ⟨rfl, hrests⟩

end Pieces

/-! ## Lines -/

namespace Bytes

/-- Lines in a row are cut at their newlines into what they say, and nothing is left behind the last
one. -/
theorem splitOn_flatMap_line {texts : List Bytes} (h : ∀ t ∈ texts, newline ∉ t) :
    (texts.flatMap line).splitOn newline = texts ++ [[]] := by
  induction texts with
  | nil => rfl
  | cons t texts ih =>
    obtain ⟨ht, htexts⟩ := List.forall_mem_cons.1 h
    rw [List.flatMap_cons, line, List.append_assoc, List.singleton_append,
      List.splitOn_append_cons_self_of_not_mem ht, ih htexts, List.cons_append]

theorem count_newline_flatMap_line {texts : List Bytes} (h : ∀ t ∈ texts, newline ∉ t) :
    (texts.flatMap line).count newline = texts.length := by
  induction texts with
  | nil => rfl
  | cons t texts ih =>
    obtain ⟨ht, htexts⟩ := List.forall_mem_cons.1 h
    rw [List.flatMap_cons, line, List.count_append, List.count_append, ih htexts,
      List.count_eq_zero.2 ht, List.count_singleton_self, List.length_cons, Nat.zero_add,
      Nat.add_comm]

end Bytes

/-! ## Characters -/

namespace Glyph

/-- Whether a glyph is a character. -/
def isChar : Glyph → Bool
  | char _ => true
  | stray _ => false

theorem toNat_ofNat_of_lt {n : Nat} (h : n < 256) : (UInt8.ofNat n).toNat = n := by
  rw [UInt8.toNat_ofNat']
  omega

theorem scalar?_val {least n : Nat} {c : Char} (hn : n = c.val.toNat) (h : least ≤ n) :
    scalar? least n = some c := by
  subst hn
  unfold scalar?
  rw [if_pos ⟨c.valid, h⟩]
  exact congrArg some (Char.ofNat_toNat c)

theorem continuation?_ofNat {x : Nat} (h : x < 64) :
    continuation? (UInt8.ofNat (x + 128)) = some x := by
  unfold continuation?
  rw [toNat_ofNat_of_lt (by omega), if_pos (by omega), Nat.add_sub_cancel]

theorem leading?_one {c : Char} (rest : Bytes) (h : c.val.toNat < 0x80) :
    leading? (UInt8.ofNat c.val.toNat) rest = some (c, 0) := by
  unfold leading?
  rw [toNat_ofNat_of_lt (by omega), if_pos h, scalar?_val rfl (Nat.zero_le _)]
  rfl

theorem leading?_two {c : Char} {k x : Nat} (rest : Bytes) (hv : c.val.toNat = k * 0x40 + x)
    (hk : k < 32) (hx : x < 64) (hleast : 0x80 ≤ c.val.toNat) :
    leading? (UInt8.ofNat (k + 192)) (UInt8.ofNat (x + 128) :: rest) = some (c, 1) := by
  unfold leading?
  rw [toNat_ofNat_of_lt (by omega), if_neg (by omega), if_neg (by omega), if_pos (by omega)]
  dsimp only
  rw [continuation?_ofNat hx]
  show (scalar? 0x80 ((k + 192 - 0xC0) * 0x40 + x)).bind _ = _
  rw [scalar?_val (c := c) (by omega) (by omega)]
  rfl

theorem leading?_three {c : Char} {k x y : Nat} (rest : Bytes)
    (hv : c.val.toNat = (k * 0x40 + x) * 0x40 + y) (hk : k < 16) (hx : x < 64) (hy : y < 64)
    (hleast : 0x800 ≤ c.val.toNat) :
    leading? (UInt8.ofNat (k + 224)) (UInt8.ofNat (x + 128) :: UInt8.ofNat (y + 128) :: rest) =
      some (c, 2) := by
  unfold leading?
  rw [toNat_ofNat_of_lt (by omega), if_neg (by omega), if_neg (by omega), if_neg (by omega),
    if_pos (by omega)]
  dsimp only
  rw [continuation?_ofNat hx, continuation?_ofNat hy]
  show (scalar? 0x800 (((k + 224 - 0xE0) * 0x40 + x) * 0x40 + y)).bind _ = _
  rw [scalar?_val (c := c) (by omega) (by omega)]
  rfl

theorem leading?_four {c : Char} {k x y z : Nat} (rest : Bytes)
    (hv : c.val.toNat = ((k * 0x40 + x) * 0x40 + y) * 0x40 + z) (hk : k < 8) (hx : x < 64)
    (hy : y < 64) (hz : z < 64) (hleast : 0x10000 ≤ c.val.toNat) :
    leading? (UInt8.ofNat (k + 240))
        (UInt8.ofNat (x + 128) :: UInt8.ofNat (y + 128) :: UInt8.ofNat (z + 128) :: rest) =
      some (c, 3) := by
  unfold leading?
  rw [toNat_ofNat_of_lt (by omega), if_neg (by omega), if_neg (by omega), if_neg (by omega),
    if_neg (by omega), if_pos (by omega)]
  dsimp only
  rw [continuation?_ofNat hx, continuation?_ofNat hy, continuation?_ofNat hz]
  show (scalar? 0x10000 ((((k + 240 - 0xF0) * 0x40 + x) * 0x40 + y) * 0x40 + z)).bind _ = _
  rw [scalar?_val (c := c) (by omega) (by omega)]
  rfl

/-- The bytes of a character start that character, whatever follows them. -/
theorem leading?_utf8EncodeChar (c : Char) (rest : Bytes) :
    ∃ b following, String.utf8EncodeChar c = b :: following ∧
      leading? b (following ++ rest) = some (c, following.length) := by
  have hmax : c.val.toNat < 0x110000 := by
    rcases c.valid with h | h <;> omega
  simp only [String.utf8EncodeChar]
  split
  next h => exact ⟨_, _, rfl, leading?_one rest (by omega)⟩
  next h₁ =>
    split
    next h =>
      exact ⟨_, _, rfl, leading?_two rest (by omega) (by omega) (by omega) (by omega)⟩
    next h₂ =>
      split
      next h =>
        exact ⟨_, _, rfl,
          leading?_three rest (by omega) (by omega) (by omega) (by omega) (by omega)⟩
      next h₃ =>
        exact ⟨_, _, rfl,
          leading?_four rest (by omega) (by omega) (by omega) (by omega) (by omega) (by omega)⟩

/-- A character in front of a text is the first glyph of the whole. -/
theorem decode_utf8EncodeChar_append (c : Char) (rest : Bytes) :
    decode (String.utf8EncodeChar c ++ rest) = char c :: decode rest := by
  obtain ⟨b, following, hc, hlead⟩ := leading?_utf8EncodeChar c rest
  rw [hc]
  show decodeFrom 0 (b :: (following ++ rest)) = _
  rw [decodeFrom, hlead]
  show char c :: decodeFrom following.length (following ++ rest) = _
  rw [decodeFrom_eq_drop, List.drop_left]

/-- Characters are read back from their bytes, whatever follows them. -/
theorem decode_encode_append {gs : List Glyph} (rest : Bytes)
    (h : ∀ g ∈ gs, g.isChar = true) : decode (encode gs ++ rest) = gs ++ decode rest := by
  induction gs with
  | nil => rfl
  | cons g gs ih =>
    obtain ⟨hg, hgs⟩ := List.forall_mem_cons.1 h
    cases g with
    | stray b => simp [isChar] at hg
    | char c =>
      rw [encode_cons, List.append_assoc, bytes, decode_utf8EncodeChar_append, ih hgs]
      rfl

theorem decode_encode {gs : List Glyph} (h : ∀ g ∈ gs, g.isChar = true) :
    decode (encode gs) = gs := by
  have := decode_encode_append [] h
  simpa [decode, decodeFrom] using this

/-! ## Single bytes -/

/-- The glyph of a byte that is a character of its own. -/
def ofByte (b : UInt8) : Glyph := char (Char.ofNat b.toNat)

/-- A byte that stands in the bytes of a character and is a character of its own is all of it. -/
theorem mem_utf8EncodeChar_ascii {c : Char} {b : UInt8} (hb : b ∈ String.utf8EncodeChar c)
    (h : b.toNat < 0x80) : c.val.toNat = b.toNat := by
  have hmax : c.val.toNat < 0x110000 := by
    rcases c.valid with h | h <;> omega
  -- every byte of a longer sequence is `0x80` or more
  have hbig : ∀ k x : Nat, k + x < 256 → 128 ≤ x → b ≠ UInt8.ofNat (k + x) := by
    intro k x hlt hx he
    rw [he, toNat_ofNat_of_lt hlt] at h
    omega
  simp only [String.utf8EncodeChar] at hb
  split at hb
  next hv =>
    rw [List.mem_singleton.1 hb, toNat_ofNat_of_lt (by omega)]
  next =>
    exfalso
    split at hb
    next =>
      simp only [List.mem_cons, List.not_mem_nil, or_false] at hb
      rcases hb with he | he
      · exact hbig _ _ (by omega) (by omega) he
      · exact hbig _ _ (by omega) (by omega) he
    next =>
      split at hb
      next =>
        simp only [List.mem_cons, List.not_mem_nil, or_false] at hb
        rcases hb with he | he | he
        · exact hbig _ _ (by omega) (by omega) he
        · exact hbig _ _ (by omega) (by omega) he
        · exact hbig _ _ (by omega) (by omega) he
      next =>
        simp only [List.mem_cons, List.not_mem_nil, or_false] at hb
        rcases hb with he | he | he | he
        · exact hbig _ _ (by omega) (by omega) he
        · exact hbig _ _ (by omega) (by omega) he
        · exact hbig _ _ (by omega) (by omega) he
        · exact hbig _ _ (by omega) (by omega) he

end Glyph

end Teeny
