import Teeny.Proofs.Generator.Relocation
import Teeny.Proofs.Token.Tokenisation

/-!
# Scanning line by line

No lexeme and no layout reaches across the end of a line, and no fault looks beyond it. So what
stands behind the lines ahead of a cursor changes nothing about what is read from them
(`Cursor.next_before`), and where they end the scan goes on with what is behind
(`Cursor.scan_before`). It goes on as it would from the start, only further down, since a scan
carries its positions along and never looks at them (`Cursor.scan_relocate`).
-/

namespace Teeny

/-! ## Positions further down -/

namespace Position

/-- The place some lines further down. -/
def below (lines : Nat) (p : Position) : Position :=
  { p with line := p.line + UInt32.ofNat lines }

theorem below_after (lines : Nat) (p : Position) (g : Glyph) :
    (p.after g).below lines = (p.below lines).after g := by
  unfold after below
  split
  next =>
    have hline : p.line + 1 + UInt32.ofNat lines = p.line + UInt32.ofNat lines + 1 := by
      rw [UInt32.add_assoc, UInt32.add_comm 1, ← UInt32.add_assoc]
    rw [hline]
  next => rfl

/-- Glyphs lead as many lines down as there are newlines among them. -/
theorem line_afterAll (p : Position) (gs : List Glyph) :
    (p.afterAll gs).line = p.line + UInt32.ofNat (gs.count (.char '\n')) := by
  induction gs generalizing p with
  | nil => simp
  | cons g gs ih =>
    rw [afterAll_cons, ih]
    by_cases hg : g = .char '\n'
    · subst hg
      rw [List.count_cons_self, UInt32.ofNat_add, UInt32.add_comm (UInt32.ofNat _),
        ← UInt32.add_assoc]
      rfl
    · have hline : (p.after g).line = p.line := by
        unfold after
        split
        next => exact absurd rfl hg
        next => rfl
      rw [hline, List.count_cons_of_ne hg]

/-- Behind a newline a line starts. -/
theorem afterAll_newline (p : Position) (gs : List Glyph) :
    p.afterAll (gs ++ [.char '\n']) =
      ⟨p.file, p.line + UInt32.ofNat (gs.count (.char '\n') + 1), 1⟩ := by
  have hline := line_afterAll p gs
  rw [afterAll_append, afterAll_cons, afterAll_nil, after, file_afterAll, hline, UInt32.ofNat_add,
    ← UInt32.add_assoc]
  rfl

end Position

namespace Glyph

/-- A text has as many newlines among its glyphs as among its bytes. -/
theorem count_newline_decode (text : Bytes) :
    (decode text).count (.char '\n') = text.count Bytes.newline := by
  have hbytes : ∀ gs : List Glyph, (∀ g ∈ gs, g ∈ decode text) →
      gs.count (.char '\n') = (encode gs).count Bytes.newline := by
    intro gs hgs
    induction gs with
    | nil => rfl
    | cons g gs ih =>
      obtain ⟨hg, hgs⟩ := List.forall_mem_cons.1 hgs
      rw [encode_cons, List.count_append, ← ih hgs]
      by_cases hn : g = .char '\n'
      · subst hn
        rw [List.count_cons_self, Nat.add_comm]
        rfl
      · have hzero : g.bytes.count Bytes.newline = 0 :=
          List.count_eq_zero.2 fun hmem => hn (eq_ofByte_of_mem hg hmem (by decide))
        rw [List.count_cons_of_ne hn, hzero, Nat.zero_add]
  rw [hbytes _ fun g hg => hg, encode_decode]

end Glyph

/-! ## Scanning further down -/

namespace Cursor

section
variable (f : Position → Position)

/-- A cursor with its position moved. -/
def relocate (c : Cursor) : Cursor := ⟨f c.position, c.rest⟩

@[simp] theorem rest_relocate (c : Cursor) : (c.relocate f).rest = c.rest := rfl

/-- What was read with all positions moved. -/
def relocateRead : Except Diagnostic (Token × Cursor) → Except Diagnostic (Token × Cursor)
  | .ok (t, d) => .ok (t.relocate f, d.relocate f)
  | .error e => .error (e.relocate f)

end

variable {f : Position → Position} (hf : ∀ p g, f (Position.after p g) = (f p).after g)
include hf

theorem advance_relocate (c : Cursor) (n : Nat) :
    (c.relocate f).advance n = (c.advance n).relocate f := by
  have hafter : ∀ (gs : List Glyph) (p : Position), (f p).afterAll gs = f (p.afterAll gs) := by
    intro gs
    induction gs with
    | nil => exact fun p => rfl
    | cons g gs ih =>
      intro p
      rw [Position.afterAll_cons, Position.afterAll_cons, ← hf, ih]
  unfold advance relocate
  rw [hafter]

theorem skipLayout_relocate (c : Cursor) : (c.relocate f).skipLayout = c.skipLayout.relocate f := by
  have hskip : ∀ (c : Cursor) (p : Glyph → Bool),
      (c.relocate f).skipWhile p = (c.skipWhile p).relocate f :=
    fun c p => advance_relocate hf c _
  unfold skipLayout
  dsimp only
  rw [hskip]
  split
  next hhash =>
    rw [if_pos (by exact hhash), hskip]
  next hhash => rw [if_neg (by exact hhash)]

theorem take_relocate (c : Cursor) (kind : Kind) (n : Nat) :
    .ok ((c.relocate f).take kind n) = relocateRead f (.ok (c.take kind n)) := by
  unfold take
  rw [advance_relocate hf]
  rfl

theorem fail_relocate (c : Cursor) (n : Nat) (fault : Fault) :
    (c.relocate f).fail n fault = relocateRead f (c.fail n fault) := by
  unfold fail
  rw [advance_relocate hf]
  rfl

theorem lexeme_relocate (c : Cursor) : (c.relocate f).lexeme = relocateRead f c.lexeme := by
  have hnumber : (c.relocate f).number = relocateRead f c.number := by
    unfold number
    simp only [rest_relocate]
    split
    next tail hdrop =>
      split
      next => exact fail_relocate hf c _ _
      next => exact take_relocate hf c _ _
    next => exact take_relocate hf c _ _
  have hstring : (c.relocate f).string = relocateRead f c.string := by
    unfold string
    simp only [rest_relocate]
    split
    next => exact fail_relocate hf c _ _
    next g more hdrop =>
      split
      next =>
        rw [advance_relocate hf]
        rfl
      next => exact fail_relocate hf c _ _
  unfold lexeme
  simp only [rest_relocate]
  split
  next => exact take_relocate hf c _ _
  next g more hrest =>
    split
    next => exact take_relocate hf c _ _
    next =>
      split
      next => exact hstring
      next =>
        split
        next => exact hnumber
        next =>
          split
          next => exact take_relocate hf c _ _
          next =>
            split
            next => exact take_relocate hf c _ _
            next => exact fail_relocate hf c _ _

/-- A scan never looks at its positions: moving the start moves all it finds. -/
theorem scan_relocate (c : Cursor) :
    (c.relocate f).scan =
      ⟨c.scan.tokens.map (Token.relocate f), c.scan.fault.map (Diagnostic.relocate f)⟩ := by
  have hnext : ∀ c : Cursor, (c.relocate f).next = relocateRead f c.next := by
    intro c
    rw [next, skipLayout_relocate hf, lexeme_relocate hf]
    rfl
  fun_induction scan c with
  | case1 c e he =>
    have hread := hnext c
    rw [he] at hread
    exact scan_of_error hread
  | case2 c t d hd ht =>
    have hread := hnext c
    rw [hd] at hread
    rw [scan_of_ok hread]
    exact if_pos ht
  | case3 c t d hd ht _ later ih =>
    have hread := hnext c
    rw [hd] at hread
    rw [scan_of_ok hread, if_neg (by exact ht), ih]
    rfl

end Cursor

/-! ## Scanning up to the end of a line -/

namespace Cursor

/-- The cursor with more behind what lies ahead of it. -/
def before (c : Cursor) (more : List Glyph) : Cursor := ⟨c.position, c.rest ++ more⟩

/-- What was read with more behind it. -/
def readBefore (more : List Glyph) :
    Except Diagnostic (Token × Cursor) → Except Diagnostic (Token × Cursor)
  | .ok (t, d) => .ok (t, d.before more)
  | .error e => .error e

variable {c : Cursor} (more : List Glyph)

theorem advance_before {n : Nat} (hn : n ≤ c.rest.length) :
    (c.before more).advance n = (c.advance n).before more := by
  unfold advance before
  rw [List.take_append_of_le_length hn, List.drop_append_of_le_length hn]

theorem take_before (kind : Kind) {n : Nat} (hn : n ≤ c.rest.length) :
    .ok ((c.before more).take kind n) = readBefore more (.ok (c.take kind n)) := by
  unfold take
  rw [advance_before more hn]
  unfold before
  rw [List.take_append_of_le_length hn]
  rfl

theorem fail_before {n : Nat} (hn : n ≤ c.rest.length) (fault : Fault) :
    (c.before more).fail n fault = readBefore more (c.fail n fault) := by
  unfold fail
  rw [advance_before more hn]
  rfl

theorem head?_before {gs : List Glyph} (hgs : gs ≠ []) : (gs ++ more).head? = gs.head? := by
  cases gs with
  | nil => exact absurd rfl hgs
  | cons g gs => rfl

/-- A class without the newline does not reach across one. -/
theorem takeWhile_before {p : Glyph → Bool} (hp : p (.char '\n') = false) {gs : List Glyph}
    (hgs : .char '\n' ∈ gs) :
    (gs ++ more).takeWhile p = gs.takeWhile p ∧ .char '\n' ∈ gs.drop (gs.takeWhile p).length ∧
      (gs.takeWhile p).length ≤ gs.length := by
  have hsplit := List.takeWhile_append_dropWhile (p := p) (l := gs)
  have hmem : .char '\n' ∈ gs.dropWhile p := by
    rw [← hsplit] at hgs
    refine (List.mem_append.1 hgs).resolve_left fun hrun => ?_
    rw [of_mem_takeWhile hrun] at hp
    cases hp
  have hlen := congrArg List.length hsplit
  have hpos := List.length_pos_of_mem hmem
  rw [List.length_append] at hlen
  refine ⟨?_, ?_, by omega⟩
  · rw [List.takeWhile_append, if_neg (by omega)]
  · rw [drop_length_takeWhile]
    exact hmem

variable (hc : .char '\n' ∈ c.rest)
include hc

theorem skipWhile_before {p : Glyph → Bool} (hp : p (.char '\n') = false) :
    (c.before more).skipWhile p = (c.skipWhile p).before more ∧
      .char '\n' ∈ (c.skipWhile p).rest := by
  obtain ⟨hrun, hmem, hlen⟩ := takeWhile_before more hp hc
  refine ⟨?_, hmem⟩
  unfold skipWhile
  rw [← advance_before more hlen]
  exact congrArg _ (congrArg List.length hrun)

theorem skipLayout_before :
    (c.before more).skipLayout = c.skipLayout.before more ∧ .char '\n' ∈ c.skipLayout.rest := by
  obtain ⟨hskip, hmem⟩ := skipWhile_before more hc (p := Glyph.isBlank) (by decide)
  have hhead : ((c.skipWhile Glyph.isBlank).before more).rest.head? =
      (c.skipWhile Glyph.isBlank).rest.head? :=
    head?_before more (List.ne_nil_of_mem hmem)
  unfold skipLayout
  dsimp only
  rw [hskip, hhead]
  split
  next => exact skipWhile_before more hmem (by decide)
  next => exact ⟨rfl, hmem⟩

theorem number_before : (c.before more).number = readBefore more c.number := by
  obtain ⟨hrun, hmem, hlen⟩ := takeWhile_before more (p := Glyph.isDigit) (by decide) hc
  have hrest : (c.before more).rest = c.rest ++ more := rfl
  have hsplit := List.length_drop (i := (c.rest.takeWhile Glyph.isDigit).length) (l := c.rest)
  unfold number
  dsimp only
  rw [hrest, hrun, List.drop_append_of_le_length hlen]
  cases hdrop : c.rest.drop (c.rest.takeWhile Glyph.isDigit).length with
  | nil =>
    rw [hdrop] at hmem
    cases hmem
  | cons g tail =>
    rw [hdrop] at hmem hsplit
    rw [List.length_cons] at hsplit
    rw [List.cons_append]
    by_cases hg : g = .char '.'
    · subst hg
      have htail := (List.mem_cons.1 hmem).resolve_left (by decide)
      obtain ⟨hrun', -, hlen'⟩ := takeWhile_before more (p := Glyph.isDigit) (by decide) htail
      simp only
      rw [hrun']
      split
      next => exact fail_before more (by omega) _
      next => exact take_before more _ (by omega)
    · split
      next heq => exact absurd (List.cons.inj heq).1 hg
      next =>
        split
        next heq => exact absurd (List.cons.inj heq).1 hg
        next => exact take_before more _ hlen

theorem string_before {rest : List Glyph} (hquote : c.rest = .char '"' :: rest) :
    (c.before more).string = readBefore more c.string := by
  have hmem : .char '\n' ∈ rest := by
    rw [hquote] at hc
    exact (List.mem_cons.1 hc).resolve_left (by decide)
  obtain ⟨hrun, hmem, hlen⟩ := takeWhile_before more (p := Glyph.isStringPart) (by decide) hmem
  have hlength : c.rest.length = rest.length + 1 := by
    rw [hquote]
    rfl
  have hrest : (c.before more).rest.tail = rest ++ more := by
    show (c.rest ++ more).tail = _
    rw [hquote]
    rfl
  have hsplit := List.length_drop (i := (rest.takeWhile Glyph.isStringPart).length) (l := rest)
  have htail : c.rest.tail = rest := by rw [hquote, List.tail_cons]
  unfold string
  dsimp only
  rw [hrest, htail, hrun, List.drop_append_of_le_length hlen]
  cases hdrop : rest.drop (rest.takeWhile Glyph.isStringPart).length with
  | nil =>
    rw [hdrop] at hmem
    cases hmem
  | cons g tail =>
    rw [hdrop, List.length_cons] at hsplit
    rw [List.cons_append]
    dsimp only
    split
    next =>
      rw [advance_before more (by omega)]
      rfl
    next => exact fail_before more (by omega) _

/-- What stands behind a newline changes nothing about the lexeme in front of it. -/
theorem lexeme_before : (c.before more).lexeme = readBefore more c.lexeme := by
  have hbehind : (c.before more).rest = c.rest ++ more := rfl
  unfold lexeme
  rw [hbehind]
  cases hrest : c.rest with
  | nil =>
    rw [hrest] at hc
    cases hc
  | cons g rest =>
    have hlength : c.rest.length = rest.length + 1 := by
      rw [hrest]
      rfl
    rw [List.cons_append]
    dsimp only
    by_cases hnewline : g = .char '\n'
    · rw [if_pos hnewline, if_pos hnewline]
      exact take_before more _ (by omega)
    rw [if_neg hnewline, if_neg hnewline]
    have hmem : .char '\n' ∈ rest := by
      rw [hrest] at hc
      exact (List.mem_cons.1 hc).resolve_left (Ne.symm hnewline)
    by_cases hquote : g = .char '"'
    · subst hquote
      exact string_before more hc hrest
    rw [if_neg hquote, if_neg hquote]
    split
    next => exact number_before more hc
    next =>
      split
      next =>
        obtain ⟨hrun, -, hlen⟩ := takeWhile_before more (p := Glyph.isWordPart) (by decide) hc
        unfold word
        dsimp only
        rw [hbehind, hrun]
        exact take_before more _ hlen
      next =>
        have hoperator : operator? g (rest ++ more) = operator? g rest := by
          unfold operator?
          rw [head?_before more (List.ne_nil_of_mem hmem)]
        rw [hoperator]
        split
        next o ho =>
          -- no operator has more than two glyphs, and the newline is behind the first
          have hspelling : o.spelling.length ≤ 2 := by cases o <;> decide
          have hpos := List.length_pos_of_mem hmem
          exact take_before more _ (by omega)
        next => exact fail_before more (Nat.zero_le _) _

/-- What stands behind a newline changes nothing about what is read in front of it. -/
theorem next_before : (c.before more).next = readBefore more c.next := by
  obtain ⟨hskip, hmem⟩ := skipLayout_before more hc
  rw [next, hskip, lexeme_before more hmem]
  rfl

end Cursor

/-! ## Whole lines -/

/-- Whether glyphs are whole lines, of the first of which a part may be missing. -/
def Glyph.EndsLine (gs : List Glyph) : Prop := ∀ g ∈ gs.getLast?, g = .char '\n'

namespace Cursor

/-- A cursor that is moved on over some glyphs becomes the other one. -/
def Reaches (c d : Cursor) : Prop :=
  ∃ gs, c.rest = gs ++ d.rest ∧ d.position = c.position.afterAll gs

namespace Reaches

variable {c d e : Cursor} {t : Token}

theorem refl (c : Cursor) : c.Reaches c := ⟨[], rfl, rfl⟩

theorem trans (h : c.Reaches d) (h' : d.Reaches e) : c.Reaches e := by
  obtain ⟨gs, hc, hd⟩ := h
  obtain ⟨hs, hd', he⟩ := h'
  refine ⟨gs ++ hs, ?_, ?_⟩
  · rw [hc, hd', List.append_assoc]
  · rw [he, hd, Position.afterAll_append]

theorem advance (c : Cursor) (n : Nat) : c.Reaches (c.advance n) :=
  ⟨c.rest.take n, (List.take_append_drop n c.rest).symm, rfl⟩

theorem skipLayout (c : Cursor) : c.Reaches c.skipLayout := by
  unfold Cursor.skipLayout
  dsimp only
  split
  next => exact (advance c _).trans (advance _ _)
  next => exact advance c _

theorem next (h : c.next = .ok (t, d)) : c.Reaches d := by
  obtain ⟨taken, -, hrest, -, hposition⟩ := lexeme_eq_ok_iff.1 h
  exact (skipLayout c).trans ⟨taken, hrest, hposition⟩

/-- Moving on leads through whole lines. -/
theorem endsLine (h : c.Reaches d) (hc : Glyph.EndsLine c.rest) : Glyph.EndsLine d.rest := by
  obtain ⟨gs, hrest, -⟩ := h
  intro g hg
  apply hc
  rw [hrest, List.getLast?_append, Option.mem_def.1 hg]
  rfl

/-- Moving on does not change where the text ends. -/
theorem position_end (h : c.Reaches d) :
    d.position.afterAll d.rest = c.position.afterAll c.rest := by
  obtain ⟨gs, hrest, hposition⟩ := h
  rw [hposition, hrest, Position.afterAll_append]

end Reaches

theorem newline_mem_of_endsLine {gs : List Glyph} (h : Glyph.EndsLine gs) (hne : gs ≠ []) :
    .char '\n' ∈ gs := by
  have hlast := List.getLast?_eq_some_getLast hne
  rw [← h _ hlast]
  exact List.getLast_mem hne

/-- Of whole lines the end of the input is read only where nothing is left. -/
theorem rest_eq_nil_of_eof {c d : Cursor} {t : Token} (hc : Glyph.EndsLine c.rest)
    (h : c.next = .ok (t, d)) (ht : t.kind = .eof) : c.rest = [] := by
  refine Decidable.byContradiction fun hne => ?_
  obtain ⟨-, hmem⟩ := skipLayout_before [] (newline_mem_of_endsLine hc hne)
  obtain ⟨taken, hreads, hrest, -⟩ := lexeme_eq_ok_iff.1 h
  rw [hrest, hreads.eof_iff.1 ht] at hmem
  cases hmem

/-- Lines are scanned as if nothing stood behind them. If they have no fault, the scan goes on
behind them, without the end of the input between. -/
theorem scan_before {c : Cursor} (hc : Glyph.EndsLine c.rest) (more : List Glyph) :
    (c.before more).scan =
      if c.scan.fault = none then
        ⟨c.scan.tokens.dropLast ++ (Cursor.mk (c.position.afterAll c.rest) more).scan.tokens,
          (Cursor.mk (c.position.afterAll c.rest) more).scan.fault⟩
      else c.scan := by
  fun_induction scan c with
  | case1 c e hnext =>
    have hne : c.rest ≠ [] := by
      intro hnil
      obtain ⟨t, d, hok, -⟩ := next_of_rest_nil hnil
      rw [hnext] at hok
      cases hok
    have hread := next_before more (newline_mem_of_endsLine hc hne)
    rw [hnext] at hread
    exact scan_of_error hread
  | case2 c t d hnext ht =>
    have hrest := rest_eq_nil_of_eof hc hnext ht
    have hbehind : c.before more = ⟨c.position, more⟩ := by
      rw [before, hrest]
      rfl
    rw [hbehind, hrest]
    rfl
  | case3 c t d hnext ht _ later ih =>
    have hne : c.rest ≠ [] := by
      intro hnil
      obtain ⟨t', d', hok, hlexeme⟩ := next_of_rest_nil hnil
      rw [hnext] at hok
      cases hok
      exact ht (congrArg Lexeme.kind hlexeme)
    have hread := next_before more (newline_mem_of_endsLine hc hne)
    rw [hnext] at hread
    have hd := Reaches.next hnext
    rw [scan_of_ok hread, if_neg ht, ih (hd.endsLine hc), hd.position_end]
    show _ = if d.scan.fault = none then
      Scan.mk ((t :: d.scan.tokens).dropLast ++ _) _ else Scan.mk (t :: d.scan.tokens) d.scan.fault
    by_cases hfault : d.scan.fault = none
    · obtain ⟨ts, e, htokens, -⟩ := d.exists_eof_of_fault_none hfault
      rw [if_pos hfault, if_pos hfault, List.dropLast_cons_of_ne_nil (by simp [htokens])]
      rfl
    · rw [if_neg hfault, if_neg hfault]

end Cursor

/-! ## Sources -/

namespace Cursor

theorem rest_ofSource (file source : Bytes) :
    (ofSource file source).rest = Glyph.decode source ++ [.char '\n'] :=
  Glyph.decode_append_ascii source (by decide) []

/-- Behind a newline another source may stand: it lies behind all that is ahead. -/
theorem ofSource_newline_append (file front back : Bytes) :
    ofSource file (front ++ Bytes.newline :: back) =
      (ofSource file front).before (ofSource file back).rest := by
  have hline : Bytes.line (front ++ Bytes.newline :: back) =
      front ++ Bytes.newline :: Bytes.line back := by simp [Bytes.line]
  show Cursor.mk _ _ = Cursor.mk _ ((ofSource file front).rest ++ _)
  rw [hline, Glyph.decode_append_ascii front (by decide), Glyph.decode_cons_ascii (by decide),
    rest_ofSource, List.append_assoc]
  rfl

/-- A source ends as many lines further down as it has newlines, and one for its last line. -/
theorem position_end (file source : Bytes) :
    (ofSource file source).position.afterAll (ofSource file source).rest =
      (Position.start file).below (1 + source.count Bytes.newline) := by
  rw [rest_ofSource, Position.afterAll_newline, Glyph.count_newline_decode, Nat.add_comm]
  rfl

end Cursor

/-- A source is scanned line by line. What stands in front of a newline is scanned as it is alone:
if it has a fault, nothing behind the newline is looked at. If it has none, the scan finds its
tokens but for the end of the input, and then what there is behind the newline, with its tokens and
its fault as many lines further down as the first part and the newline take. -/
theorem scan_line_by_line (file front back : Bytes) :
    let lines := 1 + front.count Bytes.newline
    ((scan file front).fault = none →
        ∃ tokens eof, (scan file front).tokens = tokens ++ [eof] ∧ eof.kind = .eof ∧
          (scan file (front ++ Bytes.newline :: back)).tokens =
            tokens ++ (scan file back).tokens.map (Token.relocate (Position.below lines)) ∧
          (scan file (front ++ Bytes.newline :: back)).fault =
            (scan file back).fault.map (Diagnostic.relocate (Position.below lines))) ∧
      ((scan file front).fault ≠ none →
        scan file (front ++ Bytes.newline :: back) = scan file front) := by
  intro lines
  have hlines : Glyph.EndsLine (Cursor.ofSource file front).rest := by
    intro g hg
    rw [Cursor.rest_ofSource, List.getLast?_concat] at hg
    exact (Option.some.inj hg).symm
  have hback := Cursor.scan_relocate (Position.below_after lines) (.ofSource file back)
  have hboth := Cursor.scan_before hlines (Cursor.ofSource file back).rest
  rw [← Cursor.ofSource_newline_append, Cursor.position_end] at hboth
  constructor
  · intro hfault
    obtain ⟨tokens, eof, htokens, heof, -⟩ := Cursor.exists_eof_of_fault_none _ hfault
    have hscan := hboth.trans (if_pos hfault)
    refine ⟨tokens, eof, htokens, heof, ?_, ?_⟩
    · rw [scan, hscan, htokens, List.dropLast_concat]
      exact congrArg (tokens ++ Scan.tokens ·) hback
    · rw [scan, hscan]
      exact congrArg Scan.fault hback
  · intro hfault
    exact hboth.trans (if_neg hfault)

/-- A comment that breaks off in a character is over with its line, and what is wrong behind it is
found where it stands. A string that its line does not close is not closed by the next line. -/
theorem scan_line_by_line_of_cut_comment :
    let front := bytes "A\n<= # \"" ++ [0xC3]
    (scan [] (front ++ Bytes.newline :: bytes "1 !")).tokens.map Token.toLexeme =
        [⟨.name, bytes "A"⟩, .newline, ⟨.operator .lessEqual, bytes "<="⟩, .newline,
          ⟨.number, bytes "1"⟩] ∧
      (scan [] (front ++ Bytes.newline :: bytes "1 !")).fault =
        some ⟨⟨[], 3, 3⟩, .bareExclamation⟩ ∧
      (scan [] (bytes "\"a" ++ Bytes.newline :: bytes "b\"")).fault =
        some ⟨⟨[], 1, 3⟩, .stringPastLine⟩ := by
  intro front
  obtain ⟨tokens, eof, htokens, -, hboth, hfault⟩ :=
    (scan_line_by_line [] front (bytes "1 !")).1 (by decide +kernel)
  have hopen := (scan_line_by_line [] (bytes "\"a") (bytes "b\"")).2 (by decide +kernel)
  have hfront : tokens.map Token.toLexeme =
      [⟨.name, bytes "A"⟩, .newline, ⟨.operator .lessEqual, bytes "<="⟩, .newline] := by
    have hlexemes := congrArg (List.map Token.toLexeme ·.dropLast) htokens
    rw [List.dropLast_concat] at hlexemes
    exact hlexemes.symm.trans (by decide +kernel)
  refine ⟨?_, hfault.trans (by decide +kernel), ?_⟩
  · rw [hboth, List.map_append, hfront]
    decide +kernel
  · rw [hopen]
    decide +kernel

end Teeny
