import Teeny.Proofs.Token.Spelling

/-!
# Numerals read back

A decimal numeral is a run of digits (`isDigits_decimal`) and stands for the number it was made from
(`ofDecimal_decimal`), so numerals of different numbers differ. The same for the digits of a
hexadecimal code: they are hexadecimal digits (`isHexDigit_of_mem_hex`), and a code of four of them
stands for its number (`ofHex_hex_four`).
-/

namespace Teeny.Bytes

/-! ## Decimal numerals -/

/-- The number that a decimal numeral stands for. -/
def ofDecimal (text : Bytes) : Nat := text.foldl (fun n b => n * 10 + (b.toNat - 48)) 0

theorem ofDecimal_concat (text : Bytes) (b : UInt8) :
    ofDecimal (text ++ [b]) = ofDecimal text * 10 + (b.toNat - 48) := by
  simp [ofDecimal]

theorem toNat_digit {d : Nat} (h : d < 10) : (digit d).toNat = 48 + d := by
  have hsmall : d.toUInt8.toNat = d := Glyph.toNat_ofNat_of_lt (by omega)
  rw [digit, UInt8.toNat_add, hsmall]
  show (48 + d) % 256 = 48 + d
  omega

theorem isDigit_iff {b : UInt8} : isDigit b = true ↔ 48 ≤ b.toNat ∧ b.toNat ≤ 57 := by
  simp [isDigit, UInt8.le_iff_toNat_le]

theorem isDigit_digit {d : Nat} (h : d < 10) : isDigit (digit d) = true := by
  rw [isDigit_iff, toNat_digit h]
  omega

theorem isDigits_decimal (n : Nat) : isDigits (decimal n) = true := by
  rw [isDigits_iff]
  fun_induction decimal n with
  | case1 n h => exact ⟨List.cons_ne_nil _ _, List.forall_mem_singleton.2 (isDigit_digit h)⟩
  | case2 n h ih =>
    refine ⟨List.append_ne_nil_of_left_ne_nil ih.1 _, ?_⟩
    intro b hb
    rcases List.mem_append.1 hb with hb | hb
    · exact ih.2 b hb
    · rw [List.mem_singleton.1 hb]
      exact isDigit_digit (by omega)

theorem isDigit_of_mem_decimal {n : Nat} : ∀ b ∈ decimal n, isDigit b = true :=
  (isDigits_iff.1 (isDigits_decimal n)).2

/-- A number is read back from its numeral. -/
theorem ofDecimal_decimal (n : Nat) : ofDecimal (decimal n) = n := by
  fun_induction decimal n with
  | case1 n h =>
    show 0 * 10 + ((digit n).toNat - 48) = n
    rw [toNat_digit h]
    omega
  | case2 n h ih =>
    rw [ofDecimal_concat, ih, toNat_digit (by omega)]
    omega

theorem decimal_inj {m n : Nat} (h : decimal m = decimal n) : m = n := by
  rw [← ofDecimal_decimal m, h, ofDecimal_decimal]

/-! ## Hexadecimal codes -/

/-- Whether a byte is a hexadecimal digit, in either case. -/
def isHexDigit (b : UInt8) : Bool := isDigit b || 65 ≤ b && b ≤ 70 || 97 ≤ b && b ≤ 102

/-- The value of a hexadecimal digit. -/
def hexValue (b : UInt8) : Nat :=
  if b ≤ 57 then b.toNat - 48 else if b ≤ 70 then b.toNat - 55 else b.toNat - 87

/-- The number that hexadecimal digits stand for. -/
def ofHex (text : Bytes) : Nat := text.foldl (fun n b => n * 16 + hexValue b) 0

theorem toNat_of_isHexDigit {b : UInt8} (h : isHexDigit b = true) :
    48 ≤ b.toNat ∧ b.toNat ≤ 102 := by
  simp only [isHexDigit, Bool.or_eq_true, Bool.and_eq_true, decide_eq_true_eq, isDigit_iff,
    UInt8.le_iff_toNat_le] at h
  rcases h with (h | ⟨hlow, hhigh⟩) | ⟨hlow, hhigh⟩
  · omega
  · exact ⟨Nat.le_trans (by decide) hlow, Nat.le_trans hhigh (by decide)⟩
  · exact ⟨Nat.le_trans (by decide) hlow, hhigh⟩

theorem isHexDigit_hexDigit : ∀ d < 16, isHexDigit (hexDigit d) = true := by decide

theorem hexValue_hexDigit : ∀ d < 16, hexValue (hexDigit d) = d := by decide

theorem isHexDigit_of_mem_hex {width n : Nat} : ∀ b ∈ hex width n, isHexDigit b = true := by
  induction width generalizing n with
  | zero => exact List.forall_mem_nil _
  | succ width ih =>
    intro b hb
    rcases List.mem_append.1 hb with hb | hb
    · exact ih b hb
    · rw [List.mem_singleton.1 hb]
      exact isHexDigit_hexDigit _ (Nat.mod_lt _ (by decide))

/-- A number below 2¹⁶ is read back from its code of four digits. -/
theorem ofHex_hex_four {n : Nat} (h : n < 65536) : ofHex (hex 4 n) = n := by
  have hvalue : ∀ m : Nat, hexValue (hexDigit (m % 16)) = m % 16 := fun m =>
    hexValue_hexDigit _ (Nat.mod_lt _ (by decide))
  simp only [hex, ofHex, List.nil_append, List.cons_append, List.foldl_cons, List.foldl_nil, hvalue]
  omega

end Teeny.Bytes
