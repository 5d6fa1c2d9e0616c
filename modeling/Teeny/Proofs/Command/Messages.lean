import Teeny.Proofs.Command.Reports
import Teeny.Proofs.Grammar.Labels
import Teeny.Proofs.Token.Titles

/-!
# One line for each diagnostic

A message quotes pieces of the source, and the source may hold any bytes. Still no message holds a
control character: what is quoted is escaped (`areShown_text`, `areShown_char`), and all else in a
message is fixed text, digits and the names of kinds (`Fault.areShown_message`). This holds of every
fault but those that are worded from outside, and neither a scan nor a run comes up with one of
these (`Run.of_mem_diagnostics`).

A diagnostic is thus one line, unless the name of its file is more than one. The message of a
failure can be cut into its diagnostics again, and a report has as many lines as there are
diagnostics (`Run.told_line_by_line`).
-/

namespace Teeny

/-! ## Texts without control characters -/

namespace Bytes

/-- Whether a byte is no control character of ASCII. -/
def isShown (b : UInt8) : Bool := 32 ≤ b && b ≠ 127

/-- Whether no byte of a text is a control character of ASCII. -/
def areShown (text : Bytes) : Bool := text.all isShown

@[simp] theorem areShown_append (front back : Bytes) :
    areShown (front ++ back) = (areShown front && areShown back) :=
  List.all_append

theorem newline_notMem_of_areShown {text : Bytes} (h : areShown text = true) :
    newline ∉ text := by
  intro hmem
  have hnewline := List.all_eq_true.1 h newline hmem
  revert hnewline
  decide

theorem isShown_of_isHexDigit (b : UInt8) (h : isHexDigit b = true) : isShown b = true := by
  obtain ⟨hlow, hhigh⟩ := toNat_of_isHexDigit h
  have hdelete : b ≠ 127 := by
    rintro rfl
    exact absurd hhigh (by decide)
  simp only [isShown, Bool.and_eq_true, decide_eq_true_eq]
  exact ⟨UInt8.le_iff_toNat_le.2 (Nat.le_trans (by decide) hlow), hdelete⟩

@[simp] theorem areShown_hex (width n : Nat) : areShown (hex width n) = true :=
  List.all_eq_true.2 fun b hb => isShown_of_isHexDigit b (isHexDigit_of_mem_hex b hb)

@[simp] theorem areShown_decimal (n : Nat) : areShown (decimal n) = true := by
  refine List.all_eq_true.2 fun b hb => isShown_of_isHexDigit b ?_
  rw [isHexDigit, isDigit_of_mem_decimal b hb, Bool.true_or, Bool.true_or]

end Bytes

namespace Glyph

/-- Whether a glyph is a control character of ASCII. -/
def isControl : Glyph → Bool
  | char c => c.toNat < 0x20 || c.toNat = 0x7F
  | stray _ => false

theorem isControl_ofByte (b : UInt8) : Bytes.isShown b = true → (ofByte b).isControl = false := by
  revert b
  exact forall_byte (by decide +kernel)

/-- A text without control characters has none among its glyphs. -/
theorem isControl_eq_false {text : Bytes} (h : Bytes.areShown text = true) :
    ∀ g ∈ decode text, g.isControl = false := by
  intro g hg
  refine Bool.eq_false_iff.2 fun hcontrol => ?_
  -- a control character is one byte, which stands in the text
  have hascii : g.isAscii = true := by
    cases g with
    | stray b => cases hcontrol
    | char c =>
      refine decide_eq_true (show c.toNat < 0x80 from ?_)
      simp only [isControl, Bool.or_eq_true, decide_eq_true_eq] at hcontrol
      omega
  obtain ⟨b, hb, rfl⟩ := exists_ofByte hascii
  have hmem : b ∈ text := by
    rw [← encode_decode text]
    refine List.mem_flatMap.2 ⟨_, hg, ?_⟩
    rw [bytes_ofByte hb]
    exact List.mem_singleton_self b
  rw [isControl_ofByte b (List.all_eq_true.1 h b hmem)] at hcontrol
  cases hcontrol

end Glyph

/-! ## Quotations -/

namespace Quoted

theorem areShown_utf8EncodeChar {c : Char} (h : 0x20 ≤ c.toNat ∧ c.toNat ≠ 0x7F) :
    Bytes.areShown (String.utf8EncodeChar c) = true := by
  refine List.all_eq_true.2 fun b hb => ?_
  have hbyte : 32 ≤ b.toNat ∧ b.toNat ≠ 127 := by
    by_cases hascii : b.toNat < 0x80
    · rw [← Glyph.mem_utf8EncodeChar_ascii hb hascii]
      exact h
    · omega
  simp [Bytes.isShown, UInt8.le_iff_toNat_le, ← UInt8.toNat_inj, hbyte]

/-- What is not printable is written with letters and digits. -/
theorem areShown_code (c : Char) : Bytes.areShown (code c) = true := by
  unfold code
  split
  next letter hletter =>
    have hshown : Bytes.areShown (String.utf8EncodeChar letter) = true := by
      unfold controlLetter? at hletter
      split at hletter <;> cases hletter <;> rfl
    rw [Bytes.areShown_append, hshown]
    rfl
  next =>
    split
    next => rw [Bytes.areShown_append, Bytes.areShown_hex]; rfl
    next =>
      split
      next => rw [Bytes.areShown_append, Bytes.areShown_hex]; rfl
      next => rw [Bytes.areShown_append, Bytes.areShown_hex]; rfl

theorem areShown_character {quote : Char} (hquote : 0x20 ≤ quote.toNat ∧ quote.toNat ≠ 0x7F)
    (c : Char) : Bytes.areShown (character quote c) = true := by
  unfold character
  split
  next hescaped =>
    have hc : 0x20 ≤ c.toNat ∧ c.toNat ≠ 0x7F := by
      rcases hescaped with rfl | rfl
      · exact hquote
      · decide
    rw [Bytes.areShown_append, areShown_utf8EncodeChar hc]
    rfl
  next =>
    split
    next hprintable => exact areShown_utf8EncodeChar (Printable.isPrintable_bounds hprintable)
    next => exact areShown_code c

/-- A quoted character holds no control character, whatever it quotes. -/
@[simp] theorem areShown_char (c : Char) : Bytes.areShown (char c) = true := by
  rw [char, Bytes.areShown_append, Bytes.areShown_append, areShown_character (by decide)]
  rfl

/-- A quoted text holds no control character, whatever it quotes. -/
@[simp] theorem areShown_text (t : Bytes) : Bytes.areShown (text t) = true := by
  have hglyph : ∀ g : Glyph, Bytes.areShown (glyph '"' g) = true := by
    intro g
    cases g with
    | char c => exact areShown_character (by decide) c
    | stray b =>
      show Bytes.areShown (bytes "\\x" ++ Bytes.hex 2 b.toNat) = true
      rw [Bytes.areShown_append, Bytes.areShown_hex]
      rfl
  have hbody : Bytes.areShown ((Glyph.decode t).flatMap (glyph '"')) = true := by
    rw [Bytes.areShown, List.all_flatMap]
    exact List.all_eq_true.2 fun g _ => hglyph g
  rw [text, Bytes.areShown_append, Bytes.areShown_append, hbody]
  rfl

end Quoted

/-! ## Messages -/

@[simp] theorem Kind.areShown_title (k : Kind) : Bytes.areShown k.title = true := by
  cases k with
  | keyword k => cases k <;> rfl
  | operator o => cases o <;> rfl
  | unassigned extra =>
    rw [title, Bytes.areShown_append, Bytes.areShown_append, Bytes.areShown_decimal]
    rfl
  | _ => rfl

@[simp] theorem Lexeme.areShown_description (l : Lexeme) : Bytes.areShown l.description = true := by
  have hspace : Bytes.areShown (bytes " ") = true := rfl
  unfold description
  split <;> simp [hspace]

/-- Whether a fault has its own words, and not words given from outside. -/
def Fault.isOwn : Fault → Bool
  | .other _ _ => false
  | _ => true

/-- No message holds a control character, unless its words come from outside. -/
theorem Fault.areShown_message {fault : Fault} (h : fault.isOwn = true) :
    Bytes.areShown fault.message = true := by
  cases fault with
  | other kind message => cases h
  | unexpectedCharacter g => rw [message, Bytes.areShown_append, Quoted.areShown_char]; rfl
  | illegalInString c =>
    rw [message, Bytes.areShown_append, Bytes.areShown_append, Quoted.areShown_char]
    rfl
  | expected kind found =>
    rw [message, Bytes.areShown_append, Bytes.areShown_append, Bytes.areShown_append,
      Kind.areShown_title, Lexeme.areShown_description]
    rfl
  | expectedComparison found =>
    rw [message, Bytes.areShown_append, Lexeme.areShown_description]
    rfl
  | invalidStatement found =>
    rw [message, Bytes.areShown_append, Lexeme.areShown_description]
    rfl
  | unexpectedOperand found =>
    rw [message, Bytes.areShown_append, Bytes.areShown_append, Lexeme.areShown_description]
    rfl
  | nestedTooDeep bound => rw [message, Bytes.areShown_append, Bytes.areShown_decimal]; rfl
  | unassignedVariable name =>
    rw [message, Bytes.areShown_append, Bytes.areShown_append, Quoted.areShown_text]
    rfl
  | duplicateLabel name =>
    rw [message, Bytes.areShown_append, Bytes.areShown_append, Quoted.areShown_text]
    rfl
  | missingLabel name => rw [message, Bytes.areShown_append, Quoted.areShown_text]; rfl
  | _ => rfl

/-! ## Faults with their own words -/

/-- A scan words its faults itself. -/
theorem Blames.isOwn {fault : Fault} {taken rest : List Glyph} (h : Blames fault taken rest) :
    fault.isOwn = true := by
  cases h with
  | @string body g rest hbody hg hquote =>
    unfold Glyph.stringFault
    split <;> rfl
  | _ => rfl

namespace Move

/-- Whether a move refuses a token, if it does, in words of its own. -/
def OwnsWords (m : Move) : Prop := ∀ d, m.progress = .refused d → d.fault.isOwn = true

theorem ownsWords_more (es : List Emission) (s : State) : OwnsWords ⟨es, .more s⟩ := by
  intro d h
  cases h

theorem ownsWords_refuse (t : Token) {fault : Fault} (h : fault.isOwn = true) :
    OwnsWords (refuse t fault) := by
  intro d hd
  cases hd
  exact h

theorem ownsWords_expect (k : Kind) (t : Token) (s : State) : OwnsWords (expect k t s) := by
  unfold expect
  split
  next => exact ownsWords_more [] s
  next => exact ownsWords_refuse t rfl

end Move

namespace State

open Move

variable {bound : Option Nat} {t : Token} {s : State}

theorem ownsWords_primary {p : Purpose} : (s.primary p t).OwnsWords := by
  unfold primary
  split
  next => exact ownsWords_more _ _
  next =>
    split
    next => exact ownsWords_more _ _
    next => exact ownsWords_refuse t rfl
  next => exact ownsWords_refuse t rfl

theorem ownsWords_operand {p : Purpose} {afterSign : Bool} :
    (s.operand p afterSign t).OwnsWords := by
  unfold operand
  split
  next => exact ownsWords_more _ _
  next => exact ownsWords_primary

theorem ownsWords_operator {p : Purpose} : (s.operator p t).OwnsWords := by
  unfold operator
  split
  next => exact ownsWords_more _ _
  next =>
    split
    next => exact ownsWords_more _ _
    next =>
      cases p with
      | print => exact ownsWords_expect _ _ _
      | assignment => exact ownsWords_expect _ _ _
      | condition block compared =>
        simp only [expressionEnd]
        split
        next => exact ownsWords_more _ _
        next =>
          split
          next => exact ownsWords_expect _ _ _
          next => exact ownsWords_refuse t rfl

theorem ownsWords_print {newline : Bool} : (s.print newline t).OwnsWords := by
  unfold print
  dsimp only
  split
  next => exact ownsWords_more _ _
  next => exact ownsWords_operand

theorem ownsWords_name {use : Naming} : (s.name use t).OwnsWords := by
  unfold name
  split
  next =>
    split
    next => exact ownsWords_refuse t rfl
    next => exact ownsWords_more [] _
  next => exact ownsWords_refuse t rfl

theorem ownsWords_statement : (s.statement t).OwnsWords := by
  unfold statement
  split
  case h_9 => exact ownsWords_refuse t rfl
  all_goals exact ownsWords_more [] _

theorem ownsWords_item : (s.item t).OwnsWords := by
  unfold item
  split
  next =>
    split
    next =>
      intro d h
      cases h
    next => exact ownsWords_statement
  next =>
    split
    next => exact ownsWords_more [] _
    next =>
      split
      next => exact ownsWords_refuse t rfl
      next => exact ownsWords_statement

theorem ownsWords_itemLine : (s.itemLine t).OwnsWords := by
  unfold itemLine
  split
  next => exact ownsWords_more [] _
  next => exact ownsWords_item

theorem ownsWords_blockBody {b : Block} : (s.blockBody bound b t).OwnsWords := by
  by_cases ht : t.kind = .newline
  · rw [blockBody_newline ht]
    exact ownsWords_more [] s
  · cases h : Depth.allows bound (s.blocks.length + 1) with
    | true =>
      rw [blockBody_of_allows ht h]
      exact ownsWords_item
    | false =>
      obtain ⟨n, -, he⟩ := blockBody_of_not_allows b ht h
      rw [he]
      exact ownsWords_refuse t rfl

/-- A step words its refusals itself. -/
theorem ownsWords_step : (s.step bound t).OwnsWords := by
  cases hphase : s.phase <;> simp only [step, hphase]
  case opening => exact ownsWords_itemLine
  case statement => exact ownsWords_itemLine
  case print => exact ownsWords_print
  case condition => exact ownsWords_operand
  case name => exact ownsWords_name
  case named use name position => cases use <;> exact ownsWords_expect _ _ _
  case operand => exact ownsWords_operand
  case signed => exact ownsWords_primary
  case operator => exact ownsWords_operator
  case blockLine => exact ownsWords_expect _ _ _
  case blockBody => exact ownsWords_blockBody
  case blockEnd => exact ownsWords_expect _ _ _
  case lineEnd => exact ownsWords_expect _ _ _

end State

/-! ## What is found in a source -/

/-- Whether a diagnostic is about a file and in words of its own. -/
structure Diagnostic.IsAbout (d : Diagnostic) (file : Bytes) : Prop where
  file_eq : d.position.file = file
  isOwn : d.fault.isOwn = true

theorem isAbout_of_scan {file source : Bytes} {d : Diagnostic}
    (h : (scan file source).fault = some d) : d.IsAbout file := by
  obtain ⟨ps, left, -, -, -, hfound⟩ :=
    Cursor.exists_cut (c := .ofSource file source) (Cursor.Reaches.refl _)
      (List.nil_append (Bytes.line source)).symm rfl (endsLine_line source)
  obtain ⟨blanks, taken, rest, -, -, hblames, hposition⟩ := hfound d h
  refine ⟨?_, hblames.isOwn⟩
  rw [hposition]
  rfl

/-- What a run is refused for is about its file and in its own words. -/
theorem Run.of_mem_diagnostics {bound : Option Nat} {file source : Bytes} {failure : Failure}
    (h : (ofSource bound file source).failure = some failure) :
    ∀ d ∈ failure.diagnostics, d.IsAbout file := by
  rcases failure_cases bound file source with ⟨f, hfault, hf⟩ | ⟨s, hfault, hfinished, -⟩ |
    ⟨before, t, after, es, s, d, hacted, -, hrefused, hd⟩
  · rw [hf] at h
    cases h
    exact List.forall_mem_singleton.2 (isAbout_of_scan hfault)
  · obtain ⟨s, hfailure, -, hjumps, -⟩ := (reachesEnd_iff.2 ⟨hfault, s, hfinished⟩).exists_state
    obtain ⟨firsts, hfirsts, hmissing⟩ := State.exists_firstOfEach s.labels
      (Token.behind [.GOTO] (scan file source).tokens)
    rw [← hjumps] at hmissing
    rw [hfailure] at h
    obtain ⟨-, hlist⟩ := State.verdict_eq_list hmissing (by rw [h]; exact Option.some_ne_none _)
    rw [h] at hlist
    cases hlist
    intro d hd
    obtain ⟨t, ht, rfl⟩ := List.mem_map.1 hd
    have hmem : t ∈ (scan file source).tokens :=
      List.mem_of_mem_tail ((Token.sublist_behind _ _).subset (hfirsts.inOrder.subset ht))
    exact ⟨file_of_mem_scan hmem, rfl⟩
  · rw [hd] at h
    cases h
    refine List.forall_mem_singleton.2 ⟨?_, State.ownsWords_step d hrefused⟩
    have hmem : t ∈ (scan file source).acted := by
      rw [hacted]
      exact List.mem_append_right _ (List.mem_cons_self ..)
    rw [(State.of_step_refused hrefused).1]
    exact file_of_mem_scan (Scan.mem_of_mem_acted hmem)

/-! ## Lines -/

/-- A diagnostic about a file whose name is one line is one line. -/
theorem Diagnostic.IsAbout.newline_notMem {d : Diagnostic} {file : Bytes} (h : d.IsAbout file)
    (hfile : Bytes.newline ∉ file) : Bytes.newline ∉ d.message := by
  have hposition : Bytes.newline ∉ d.position.text :=
    Position.newline_notMem_text (h.file_eq ▸ hfile)
  have hwords : Bytes.newline ∉ bytes ": " ++ d.fault.message := by
    apply Bytes.newline_notMem_of_areShown
    rw [Bytes.areShown_append, Fault.areShown_message h.isOwn]
    rfl
  rw [message, List.append_assoc, List.mem_append]
  exact fun hmem => hmem.elim hposition hwords

/-- What a scan or a run of any source reports holds no control character in any of its messages. If
the name of the file has no newline, the words of the failure are cut at their newlines into those
of its diagnostics, in order, and a report has these as its lines, one for each diagnostic. -/
theorem Run.told_line_by_line (bound : Option Nat) (file source : Bytes) (failure : Failure)
    (h : (ofSource bound file source).failure = some failure ∨
      (scan file source).fault.map Failure.single = some failure) :
    (∀ d ∈ failure.diagnostics, ∀ g ∈ Glyph.decode d.fault.message, g.isControl = false) ∧
      (Bytes.newline ∉ file →
        failure.message.splitOn Bytes.newline = failure.diagnostics.map Diagnostic.message ∧
        (Command.report failure).splitOn Bytes.newline =
          failure.diagnostics.map Diagnostic.message ++ [[]] ∧
        (Command.report failure).count Bytes.newline = failure.diagnostics.length) := by
  obtain ⟨hne, habout⟩ :
      failure.diagnostics ≠ [] ∧ ∀ d ∈ failure.diagnostics, d.IsAbout file := by
    rcases h with h | h
    · exact ⟨diagnostics_ne_nil h, of_mem_diagnostics h⟩
    · obtain ⟨d, hd, rfl⟩ := Option.map_eq_some_iff.1 h
      exact ⟨List.cons_ne_nil _ _, List.forall_mem_singleton.2 (isAbout_of_scan hd)⟩
  refine ⟨?_, ?_⟩
  · intro d hd
    exact Glyph.isControl_eq_false (Fault.areShown_message (habout d hd).isOwn)
  · intro hfile
    have hlines : ∀ m ∈ failure.diagnostics.map Diagnostic.message, Bytes.newline ∉ m := by
      intro m hm
      obtain ⟨d, hd, rfl⟩ := List.mem_map.1 hm
      exact (habout d hd).newline_notMem hfile
    have hreport : Command.report failure =
        (failure.diagnostics.map Diagnostic.message).flatMap Bytes.line := by
      rw [Command.report, List.flatMap_map]
    refine ⟨?_, ?_, ?_⟩
    · rw [Failure.message_eq_intercalate hne]
      exact List.splitOn_intercalate _ hlines fun hnil => hne (List.map_eq_nil_iff.1 hnil)
    · rw [hreport, Bytes.splitOn_flatMap_line hlines]
    · rw [hreport, Bytes.count_newline_flatMap_line hlines, List.length_map]

/-- Two labels are missing, which makes two lines. A bell in a string is quoted and does not
ring. -/
theorem Run.told_line_by_line_of_bell :
    (∃ failure,
        (ofSource none (bytes "m") (bytes "GOTO b\nGOTO a\nGOTO b")).failure = some failure ∧
        failure.message.splitOn Bytes.newline =
          [bytes "m:1:6: GOTO to undeclared label \"b\"",
            bytes "m:2:6: GOTO to undeclared label \"a\""] ∧
        (Command.report failure).count Bytes.newline = 2) ∧
      (scan [] (bytes "PRINT \"\x07\"")).fault = some ⟨⟨[], 1, 8⟩, .illegalInString '\x07'⟩ ∧
        ∀ g ∈ Glyph.decode (Fault.message (.illegalInString '\x07')), g.isControl = false := by
  have hjumps : (ofSource none (bytes "m") (bytes "GOTO b\nGOTO a\nGOTO b")).failure = some (.list
      [⟨⟨bytes "m", 1, 6⟩, .missingLabel (bytes "b")⟩,
        ⟨⟨bytes "m", 2, 6⟩, .missingLabel (bytes "a")⟩]) := by decide +kernel
  have hbell : (scan [] (bytes "PRINT \"\x07\"")).fault =
      some ⟨⟨[], 1, 8⟩, .illegalInString '\x07'⟩ := by decide +kernel
  obtain ⟨-, hlines⟩ := told_line_by_line none (bytes "m") _ _ (Or.inl hjumps)
  obtain ⟨hsplit, -, hcount⟩ := hlines (by decide)
  obtain ⟨hshown, -⟩ := told_line_by_line none [] _ (.single _) (Or.inr (by rw [hbell]; rfl))
  refine ⟨⟨_, hjumps, ?_, hcount⟩, hbell, hshown _ (List.mem_singleton_self _)⟩
  rw [hsplit]
  decide +kernel

end Teeny
