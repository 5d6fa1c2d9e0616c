import Teeny.Proofs.Text.Numerals

/-!
# Positions and kinds in words

The words for a position tell the position (`Position.text_inj`), also where the name of the file
holds colons and digits or is empty: they are read from the right, where two numerals with a colon
between them stand, and the name is what is left. The words for a kind tell its code
(`Kind.title_ofCode_inj`): the names of the assigned codes differ, and none starts like that of an
unassigned one, which holds the code itself.
-/

namespace Teeny

/-! ## Positions -/

namespace Position

/-- The name of a file in front of a place in it. -/
def lead (file : Bytes) : Bytes := if file = [] then [] else file ++ bytes ":"

theorem text_eq (p : Position) :
    p.text = lead p.file ++ Bytes.decimal p.line.toNat ++ bytes ":" ++
      Bytes.decimal p.column.toNat := by
  unfold text lead
  split
  · rfl
  · simp only [List.append_assoc]

theorem stops_reverse_lead (file : Bytes) : Stops Bytes.isDigit (lead file).reverse := by
  unfold lead
  split
  · exact stops_nil
  · rw [List.reverse_append]
    exact stops_append rfl rfl _

theorem lead_inj {file file' : Bytes} (h : lead file = lead file') : file = file' := by
  unfold lead at h
  split at h <;> split at h
  next hnil hnil' => rw [hnil, hnil']
  next => exact absurd h.symm (List.append_ne_nil_of_right_ne_nil _ (by decide))
  next => exact absurd h (List.append_ne_nil_of_right_ne_nil _ (by decide))
  next => exact List.append_cancel_right h

/-- A position is read back from its words. -/
theorem text_inj {p p' : Position} (h : p.text = p'.text) : p = p' := by
  rw [text_eq, text_eq] at h
  -- from the right: the digits of the column, a colon, the digits of the line, and the name
  have hcolon : ∀ text : Bytes, Stops Bytes.isDigit (text ++ bytes ":").reverse := by
    intro text
    rw [List.reverse_append]
    exact stops_append rfl rfl _
  obtain ⟨hplace, hcolumn⟩ := run_inj_right Bytes.isDigit_of_mem_decimal
    Bytes.isDigit_of_mem_decimal (hcolon _) (hcolon _) h
  obtain ⟨hlead, hline⟩ := run_inj_right Bytes.isDigit_of_mem_decimal
    Bytes.isDigit_of_mem_decimal (stops_reverse_lead _) (stops_reverse_lead _)
    (List.append_cancel_right hplace)
  cases p
  cases p'
  rw [mk.injEq]
  exact ⟨lead_inj hlead, UInt32.toNat.inj (Bytes.decimal_inj hline),
    UInt32.toNat.inj (Bytes.decimal_inj hcolumn)⟩

/-- Where the file is known, a position is read back from the left as well, in front of anything
that is no digit. -/
theorem text_append_inj {p p' : Position} {rest rest' : Bytes} (hfile : p.file = p'.file)
    (hrest : Stops Bytes.isDigit rest) (hrest' : Stops Bytes.isDigit rest')
    (h : p.text ++ rest = p'.text ++ rest') : p = p' ∧ rest = rest' := by
  have hcolon : ∀ text : Bytes, Stops Bytes.isDigit (bytes ":" ++ text) := fun text =>
    stops_append rfl rfl _
  rw [text_eq, text_eq, hfile] at h
  simp only [List.append_assoc] at h
  obtain ⟨hline, hplace⟩ := run_inj Bytes.isDigit_of_mem_decimal Bytes.isDigit_of_mem_decimal
    (hcolon _) (hcolon _) (List.append_cancel_left h)
  obtain ⟨hcolumn, hrests⟩ := run_inj Bytes.isDigit_of_mem_decimal Bytes.isDigit_of_mem_decimal
    hrest hrest' (List.append_cancel_left hplace)
  refine ⟨text_inj ?_, hrests⟩
  rw [text_eq, text_eq, hfile, hline, hcolumn]

theorem isEncoded_text {p : Position} (h : Bytes.IsEncoded p.file) : Bytes.IsEncoded p.text := by
  have hdecimal : ∀ n, Bytes.IsEncoded (Bytes.decimal n) := fun n =>
    Bytes.isEncoded_of_ascii fun b hb =>
      Bytes.toNat_lt_of_isDigit (Bytes.isDigit_of_mem_decimal b hb)
  have hlead : Bytes.IsEncoded (lead p.file) := by
    unfold lead
    split
    · exact Bytes.isEncoded_bytes ""
    · exact h.append (Bytes.isEncoded_bytes ":")
  rw [text_eq]
  exact ((hlead.append (hdecimal _)).append (Bytes.isEncoded_bytes ":")).append (hdecimal _)

theorem newline_notMem_text {p : Position} (h : Bytes.newline ∉ p.file) :
    Bytes.newline ∉ p.text := by
  have hdecimal : ∀ n, Bytes.newline ∉ Bytes.decimal n := fun n hmem =>
    absurd (Bytes.isDigit_of_mem_decimal _ hmem) (by decide)
  have hcolon : Bytes.newline ∉ bytes ":" := by decide
  have hlead : Bytes.newline ∉ lead p.file := by
    unfold lead
    split
    · exact List.not_mem_nil
    · exact fun hmem => (List.mem_append.1 hmem).elim h hcolon
  rw [text_eq, List.mem_append, List.mem_append, List.mem_append]
  rintro (((hmem | hmem) | hmem) | hmem)
  · exact hlead hmem
  · exact hdecimal _ hmem
  · exact hcolon hmem
  · exact hdecimal _ hmem

end Position

/-! ## Kinds -/

namespace Kind

/-- Whether a byte is neither a blank nor beyond ASCII. -/
def isTitlePart (b : UInt8) : Bool := 32 < b && b < 128

theorem isTitlePart_iff {b : UInt8} : isTitlePart b = true ↔ 32 < b.toNat ∧ b.toNat < 128 := by
  simp only [isTitlePart, Bool.and_eq_true, decide_eq_true_eq, UInt8.lt_iff_toNat_lt]
  rfl

theorem isTitlePart_of_mem_title (k : Kind) : ∀ b ∈ k.title, isTitlePart b = true := by
  have hdigit : ∀ b, Bytes.isDigit b = true → isTitlePart b = true := by
    intro b hb
    have hb := Bytes.isDigit_iff.1 hb
    exact isTitlePart_iff.2 (by omega)
  rw [← List.all_eq_true]
  cases k with
  | keyword k => cases k <;> rfl
  | operator o => cases o <;> rfl
  | unassigned extra =>
    have hdecimal : (Bytes.decimal (extra + 29)).all isTitlePart = true :=
      List.all_eq_true.2 fun b hb => hdigit b (Bytes.isDigit_of_mem_decimal b hb)
    rw [title, List.all_append, List.all_append, hdecimal]
    rfl
  | _ => rfl

theorem isEncoded_title (k : Kind) : Bytes.IsEncoded k.title :=
  Bytes.isEncoded_of_ascii fun b hb => (isTitlePart_iff.1 (isTitlePart_of_mem_title k b hb)).2

/-- The words for a code that no kind uses. -/
theorem title_ofCode_of_le {n : Nat} (h : 29 ≤ n) :
    (ofCode n).title = bytes "kind(" ++ Bytes.decimal n ++ bytes ")" := by
  obtain ⟨extra, rfl⟩ := Nat.exists_eq_add_of_le' h
  rfl

theorem title_ofCode_ne {m n : Nat} (hm : m < 29) (hn : 29 ≤ n) :
    (ofCode m).title ≠ (ofCode n).title := by
  have hothers : ∀ m < 29, (ofCode m).title.take 5 ≠ bytes "kind(" := by decide +kernel
  intro h
  apply hothers m hm
  rw [h, title_ofCode_of_le hn]
  rfl

/-- A code is read back from the words for its kind. -/
theorem title_ofCode_inj {m n : Nat} (h : (ofCode m).title = (ofCode n).title) : m = n := by
  have hassigned : ∀ m < 29, ∀ n < 29, (ofCode m).title = (ofCode n).title → m = n := by
    decide +kernel
  rcases Nat.lt_or_ge m 29 with hm | hm <;> rcases Nat.lt_or_ge n 29 with hn | hn
  · exact hassigned m hm n hn h
  · exact absurd h (title_ofCode_ne hm hn)
  · exact absurd h.symm (title_ofCode_ne hn hm)
  · rw [title_ofCode_of_le hm, title_ofCode_of_le hn] at h
    exact Bytes.decimal_inj (List.append_cancel_left (List.append_cancel_right h))

theorem title_inj {k k' : Kind} (h : k.title = k'.title) : k = k' := by
  rw [← ofCode_code k, ← ofCode_code k'] at h ⊢
  rw [title_ofCode_inj h]

theorem title_append_inj {k k' : Kind} {rest rest' : Bytes} (hrest : Stops isTitlePart rest)
    (hrest' : Stops isTitlePart rest') (h : k.title ++ rest = k'.title ++ rest') :
    k = k' ∧ rest = rest' := by
  obtain ⟨htitle, hrests⟩ := run_inj (isTitlePart_of_mem_title k) (isTitlePart_of_mem_title k')
    hrest hrest' h
  exact ⟨title_inj htitle, hrests⟩

end Kind

end Teeny
