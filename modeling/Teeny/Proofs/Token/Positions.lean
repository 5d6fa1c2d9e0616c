import Teeny.Proofs.Token.Faults

/-!
# Where lexemes and faults stand

A scan carries its position along, glyph by glyph. Here a position is told from the text alone:
the line from the newlines in front of it, the column from the glyphs behind the last of them
(`Position.behind`). A cursor that stands in a text is at the place that belongs to what it has
behind it (`Cursor.StandsIn`), and stays so whatever it reads, since a text is read the same way up
to a place whatever comes behind (`Glyph.decode_encode_front`).

A text is cut into pieces up to where it cannot be read (`Cut`), in one way only. Each token has the
place of its piece, and the fault the place of what it is found in (`scan_located`). As long as the
numbers do not start over, places in a text are ordered as they follow each other
(`Cursor.pairwise_scan`).
-/

namespace Teeny

/-! ## Places in a text -/

/-- The part of a text behind its last newline: all of it, if there is none. -/
def Bytes.lastLine (text : Bytes) : Bytes := (text.reverse.takeWhile (· ≠ newline)).reverse

theorem Bytes.newline_notMem_lastLine (text : Bytes) : newline ∉ text.lastLine := by
  intro h
  have hne := of_mem_takeWhile (List.mem_reverse.1 h)
  exact of_decide_eq_true hne rfl

/-- A text is its last line, or has a newline in front of it. -/
theorem Bytes.lastLine_cases (text : Bytes) :
    text = text.lastLine ∨ ∃ front, text = front ++ newline :: text.lastLine := by
  have hsplit := List.takeWhile_append_dropWhile (p := fun b => b ≠ newline) (l := text.reverse)
  have htext := congrArg List.reverse hsplit
  rw [List.reverse_append, List.reverse_reverse] at htext
  cases hdrop : text.reverse.dropWhile (· ≠ newline) with
  | nil =>
    rw [hdrop] at htext
    exact Or.inl htext.symm
  | cons b rest =>
    have hb := stops_cons.1 (hdrop ▸ stops_dropWhile text.reverse)
    rw [decide_eq_false_iff_not, ne_eq, Decidable.not_not] at hb
    subst hb
    rw [hdrop, List.reverse_cons, List.append_assoc] at htext
    exact Or.inr ⟨rest.reverse, htext.symm⟩

namespace Glyph

/-- The glyphs behind the last newline of a text are those of its last line. -/
theorem length_lastLine (text : Bytes) :
    ((decode text).reverse.takeWhile (· ≠ char '\n')).length =
      (decode text.lastLine).length := by
  have hlast : ∀ g ∈ (decode text.lastLine).reverse, decide (g ≠ char '\n') = true := by
    intro g hg
    refine decide_eq_true fun he => text.newline_notMem_lastLine ?_
    rw [← newline_mem_decode_iff, ← he]
    exact List.mem_reverse.1 hg
  have hrun : ∀ front : List Glyph,
      Stops (fun g => decide (g ≠ char '\n')) front →
        ((decode text.lastLine).reverse ++ front).takeWhile (· ≠ char '\n') =
          (decode text.lastLine).reverse := fun front => takeWhile_run hlast
  rcases text.lastLine_cases with htext | ⟨front, htext⟩
  · have hall := hrun [] (fun g hg => by cases hg)
    rw [List.append_nil, ← htext] at hall
    rw [hall, ← htext, List.length_reverse]
  · have hdecode : (decode text).reverse =
        (decode text.lastLine).reverse ++ char '\n' :: (decode front).reverse := by
      rw [htext, decode_append_ascii front (by decide), decode_cons_ascii (by decide), ← htext]
      simp only [List.reverse_append, List.reverse_cons, List.append_assoc, List.singleton_append]
      rfl
    rw [hdecode, hrun _ (stops_cons.2 (by decide)), List.length_reverse]

/-- A text has no more glyphs than bytes. -/
theorem length_decodeFrom_le (skip : Nat) (text : Bytes) :
    (decodeFrom skip text).length ≤ text.length := by
  induction text generalizing skip with
  | nil => exact Nat.le_of_eq rfl
  | cons b text ih =>
    cases skip with
    | succ skip => exact Nat.le_succ_of_le (ih skip)
    | zero =>
      rw [decodeFrom]
      split
      next c more hlead => exact Nat.succ_le_succ (ih more)
      next => exact Nat.succ_le_succ (ih 0)

end Glyph

namespace Position

/-- The place right behind a text that starts a file: its line is told by the newlines of the text,
its column by the glyphs behind the last of them. -/
def behind (file text : Bytes) : Position :=
  ⟨file, .ofNat (1 + text.count Bytes.newline), .ofNat (1 + (Glyph.decode text.lastLine).length)⟩

/-- The place of what starts at an offset of a text, counted in bytes. -/
def atOffset (file text : Bytes) (offset : Nat) : Position := behind file (text.take offset)

/-- Whether a place comes before another one, in the order of lines and columns. -/
def Before (p q : Position) : Prop := p.line < q.line ∨ p.line = q.line ∧ p.column < q.column

theorem atOffset_append (file front rest : Bytes) :
    atOffset file (front ++ rest) front.length = behind file front := by
  rw [atOffset, List.take_left]

theorem after_of_ne (p : Position) {g : Glyph} (h : g ≠ .char '\n') :
    p.after g = { p with column := p.column + 1 } := by
  unfold after
  split
  next => exact absurd rfl h
  next => rfl

/-- The place behind glyphs that start a file. -/
theorem afterAll_start (file : Bytes) (gs : List Glyph) :
    (start file).afterAll gs =
      ⟨file, .ofNat (1 + gs.count (.char '\n')),
        .ofNat (1 + (gs.reverse.takeWhile (· ≠ .char '\n')).length)⟩ := by
  -- the last glyph decides, so the induction takes the glyphs from the end
  have hends : ∀ hs : List Glyph, (start file).afterAll hs.reverse =
      ⟨file, .ofNat (1 + hs.count (.char '\n')),
        .ofNat (1 + (hs.takeWhile (· ≠ .char '\n')).length)⟩ := by
    intro hs
    induction hs with
    | nil => rfl
    | cons g hs ih =>
      rw [List.reverse_cons, afterAll_append, ih, afterAll_cons, afterAll_nil]
      by_cases hg : g = .char '\n'
      · subst hg
        rw [List.count_cons_self, List.takeWhile_cons, if_neg (by decide), ← Nat.add_assoc,
          UInt32.ofNat_add (_ + _)]
        rfl
      · rw [after_of_ne _ hg, List.count_cons_of_ne hg, List.takeWhile_cons,
          if_pos (decide_eq_true hg), List.length_cons, ← Nat.add_assoc, UInt32.ofNat_add (_ + _)]
        rfl
  have hgs := hends gs.reverse
  rwa [List.reverse_reverse, List.count_reverse] at hgs

/-- The place behind the glyphs of a text is told by its bytes. -/
theorem afterAll_decode (file text : Bytes) :
    (start file).afterAll (Glyph.decode text) = behind file text := by
  rw [afterAll_start, Glyph.count_newline_decode, Glyph.length_lastLine, behind]

/-- In a file that is not too long, a place behind another one comes after it. -/
theorem before_afterAll (file : Bytes) {gs hs : List Glyph} (hne : hs ≠ [])
    (hlen : gs.length + hs.length + 1 < UInt32.size) :
    ((start file).afterAll gs).Before ((start file).afterAll (gs ++ hs)) := by
  have hlt : ∀ {m n : Nat}, m < n → n < UInt32.size → UInt32.ofNat m < UInt32.ofNat n := by
    intro m n hmn hn
    rw [UInt32.lt_iff_toNat_lt, UInt32.toNat_ofNat_of_lt' (Nat.lt_trans hmn hn),
      UInt32.toNat_ofNat_of_lt' hn]
    exact hmn
  have hpos : 0 < hs.length := List.length_pos_iff.2 hne
  rw [afterAll_start, afterAll_start, List.count_append]
  by_cases hmem : .char '\n' ∈ hs
  · -- a newline between them puts the second one on a later line
    left
    have hcount : 0 < hs.count (.char '\n') := List.count_pos_iff.2 hmem
    have hgs := gs.count_le_length (a := Glyph.char '\n')
    have hhs := hs.count_le_length (a := Glyph.char '\n')
    refine hlt ?_ ?_ <;> omega
  · right
    have hrun : ∀ g ∈ hs.reverse, decide (g ≠ Glyph.char '\n') = true := by
      intro g hg
      refine decide_eq_true fun he => hmem ?_
      rw [← he]
      exact List.mem_reverse.1 hg
    have hle := (List.takeWhile_sublist (l := gs.reverse) (fun g => g ≠ Glyph.char '\n')).length_le
    rw [List.length_reverse] at hle
    rw [List.count_eq_zero.2 hmem, List.reverse_append, List.takeWhile_append_of_pos hrun,
      List.length_append, List.length_reverse]
    refine ⟨rfl, hlt ?_ ?_⟩ <;> omega

end Position

/-! ## Cursors in a text -/

namespace Cursor

/-- A cursor stands in a text, at the place that belongs to what it has behind it. -/
def StandsIn (c : Cursor) (file text : Bytes) : Prop :=
  Reaches ⟨.start file, Glyph.decode text⟩ c

/-- The place of a cursor is told by the part of the text that it has behind it. -/
theorem StandsIn.position_eq {c : Cursor} {file text front : Bytes} (h : c.StandsIn file text)
    (htext : text = front ++ Glyph.encode c.rest) : c.position = .behind file front := by
  obtain ⟨gs, hdecode, hposition⟩ := h
  replace hdecode : Glyph.decode text = gs ++ c.rest := hdecode
  have hfront : front = Glyph.encode gs := by
    rw [← Glyph.encode_decode text, hdecode, Glyph.encode_append] at htext
    exact (List.append_cancel_right htext).symm
  rw [hposition, hfront, ← Position.afterAll_decode, Glyph.decode_encode_front hdecode]

/-! ## The order of tokens -/

/-- Every token of a scan stands where a cursor comes by. -/
theorem exists_reached_of_mem (c : Cursor) :
    ∀ t ∈ c.scan.tokens, ∃ d, c.Reaches d ∧ t.position = d.position := by
  have hnext : ∀ {c d : Cursor} {t : Token}, c.next = .ok (t, d) →
      ∃ d, c.Reaches d ∧ t.position = d.position := by
    intro c d t h
    obtain ⟨-, -, -, hposition, -⟩ := lexeme_eq_ok_iff.1 h
    exact ⟨_, .skipLayout c, hposition⟩
  fun_induction scan c with
  | case1 c f h =>
    intro u hu
    cases hu
  | case2 c t d h ht =>
    intro u hu
    obtain rfl := List.mem_singleton.1 hu
    exact hnext h
  | case3 c t d h ht _ later ih =>
    intro u hu
    rcases List.mem_cons.1 hu with rfl | hu
    · exact hnext h
    · obtain ⟨e, he, hposition⟩ := ih u hu
      exact ⟨e, (Reaches.next h).trans he, hposition⟩

/-- In a text that is not too long, each token comes before those behind it. -/
theorem pairwise_scan {c : Cursor} {file text : Bytes} (hc : c.StandsIn file text)
    (hlen : text.length + 1 < UInt32.size) :
    c.scan.tokens.Pairwise fun t u => t.position.Before u.position := by
  fun_induction scan c with
  | case1 c f h => exact .nil
  | case2 c t d h ht => exact List.pairwise_singleton ..
  | case3 c t d h ht _ later ih =>
    refine List.pairwise_cons.2 ⟨?_, ih (hc.trans (.next h))⟩
    intro u hu
    obtain ⟨taken, hreads, hrest, hposition, hd⟩ := lexeme_eq_ok_iff.1 h
    obtain ⟨e, ⟨more, hmore, he⟩, hu⟩ := d.exists_reached_of_mem u hu
    obtain ⟨gs, hdecode, hskip⟩ := hc.trans (.skipLayout c)
    replace hdecode : Glyph.decode text = gs ++ c.skipLayout.rest := hdecode
    -- between the two stands at least what the first one takes
    have hne : taken ++ more ≠ [] := by
      obtain ⟨g, tail, rfl, -⟩ := hreads.exists_solid ht
      exact List.cons_ne_nil _ _
    have hbound : gs.length + (taken ++ more).length + 1 < UInt32.size := by
      have hle := Glyph.length_decodeFrom_le 0 text
      rw [← Glyph.decode, hdecode, hrest, hmore, ← List.append_assoc taken, List.length_append,
        @List.length_append _ (taken ++ more)] at hle
      omega
    have hbefore := Position.before_afterAll file hne hbound
    rw [Position.afterAll_append, Position.afterAll_append] at hbefore
    rw [hposition, hu, he, hd, hskip]
    exact hbefore

end Cursor

theorem file_of_mem_scan {file source : Bytes} {t : Token} (h : t ∈ (scan file source).tokens) :
    t.position.file = file := by
  obtain ⟨d, ⟨gs, -, hposition⟩, ht⟩ := Cursor.exists_reached_of_mem _ t h
  rw [ht, hposition, Position.file_afterAll]
  rfl

/-! ## Cutting a text as far as it can be read -/

/-- A text is cut into pieces from its start, with `left` behind them. The end of the input is the
last piece. -/
inductive Cut : Bytes → List Piece → Bytes → Prop where
  | nil (left : Bytes) : Cut left [] left
  | cons {p : Piece} {ps : List Piece} {rest left : Bytes} (hp : p.Stands rest)
    (hlast : p.lexeme.kind = .eof → ps = []) (h : Cut rest ps left) :
    Cut (p.text ++ rest) (p :: ps) left

namespace Cut

variable {text left left' : Bytes} {ps ps' : List Piece}

theorem exists_of_cons {p : Piece} (h : Cut text (p :: ps) left) :
    ∃ rest, text = p.text ++ rest ∧ p.Stands rest ∧ Cut rest ps left := by
  cases h with
  | cons hp hlast h => exact ⟨_, rfl, hp, h⟩

theorem text_eq (h : Cut text ps left) : text = Piece.texts ps ++ left := by
  induction h with
  | nil left => rfl
  | cons hp hlast h ih =>
    rw [ih, ← List.append_assoc]
    rfl

/-- There is one way only to cut off a number of pieces. -/
theorem unique (h : Cut text ps left) (h' : Cut text ps' left') (hlen : ps'.length = ps.length) :
    ps' = ps := by
  induction h generalizing ps' with
  | nil left => exact List.length_eq_zero_iff.1 hlen
  | @cons p ps rest left hp hlast h ih =>
    cases ps' with
    | nil => cases hlen
    | cons q qs =>
      obtain ⟨rest', htext, hq, hrest⟩ := h'.exists_of_cons
      obtain ⟨rfl, rfl⟩ := hp.unique hq htext
      rw [ih hrest (Nat.succ.inj hlen)]

end Cut

namespace Piece

/-- The tokens of pieces that stand behind the text `front`. -/
def located (file : Bytes) : Bytes → List Piece → List Token
  | _, [] => []
  | front, p :: ps => ⟨p.lexeme, .behind file (front ++ p.gap)⟩ :: located file (front ++ p.text) ps

theorem length_located (file front : Bytes) (ps : List Piece) :
    (located file front ps).length = ps.length := by
  induction ps generalizing front with
  | nil => rfl
  | cons p ps ih => exact congrArg Nat.succ (ih _)

theorem getElem?_located (file front : Bytes) (before : List Piece) (p : Piece)
    (after : List Piece) :
    (located file front (before ++ p :: after))[before.length]? =
      some ⟨p.lexeme, .behind file (front ++ texts before ++ p.gap)⟩ := by
  induction before generalizing front with
  | nil =>
    rw [show texts [] = [] from rfl, List.append_nil]
    rfl
  | cons q before ih =>
    have hq := ih (front ++ q.text)
    rw [List.append_assoc front] at hq
    exact hq

end Piece

/-- A fault is found in the text `left`, behind the text `front`: behind blanks, a part of it is the
start of a lexeme, and the fault has the place of what does not go on with it. -/
def Diagnostic.IsFoundIn (d : Diagnostic) (file front left : Bytes) : Prop :=
  ∃ blanks taken rest, left = blanks ++ (taken ++ rest) ∧
    (∀ b ∈ blanks, Bytes.isBlank b = true) ∧
    Blames d.fault (Glyph.decode taken) (Glyph.decode rest) ∧
    d.position = .atOffset file (front ++ left) (front ++ blanks ++ taken).length

theorem EndsLine.decode {text : Bytes} (h : EndsLine text) :
    Glyph.EndsLine (Glyph.decode text) := by
  rcases List.eq_nil_or_concat text with rfl | ⟨front, b, htext⟩
  · intro g hg
    cases hg
  · rw [List.concat_eq_append] at htext
    subst htext
    have hb : b = Bytes.newline := h b (by rw [List.getLast?_concat]; rfl)
    subst hb
    intro g hg
    rw [Glyph.decode_append_ascii front (by decide)] at hg
    have hlast : Glyph.decode [Bytes.newline] = [.char '\n'] := by decide
    rw [hlast, List.getLast?_concat] at hg
    exact (Option.some.inj hg).symm

namespace Cursor

variable {c d : Cursor} {file text front rest : Bytes}

/-- What is read has the place behind the gap in front of it. -/
theorem position_of_next {t : Token} {gap behind : Bytes} (hc : c.StandsIn file text)
    (htext : text = front ++ rest) (hrest : rest = Piece.text ⟨gap, t.toLexeme⟩ ++ behind)
    (h : c.next = .ok (t, d)) (hd : d.rest = Glyph.decode behind) :
    t.position = .behind file (front ++ gap) := by
  obtain ⟨taken, hreads, hskip, hposition, -⟩ := lexeme_eq_ok_iff.1 h
  rw [hposition]
  refine StandsIn.position_eq (hc.trans (.skipLayout c)) ?_
  rw [htext, hrest, hskip, Glyph.encode_append, hreads.encode_eq, hd, Glyph.encode_decode,
    Piece.text]
  simp only [List.append_assoc]

/-- What cannot be read is found where a cursor stands. -/
theorem isFoundIn_of_next {f : Diagnostic} (hc : c.StandsIn file text)
    (htext : text = front ++ rest) (hrest : c.rest = Glyph.decode rest) (hline : EndsLine rest)
    (h : c.next = .error f) : f.IsFoundIn file front rest := by
  obtain ⟨blanks, taken, left, hsplit, hblanks, hblames, hskip, hposition⟩ :=
    blames_of_next (hrest ▸ hline.decode) h
  rw [hrest] at hsplit
  have hleft : Glyph.decode (Glyph.encode left) = left := by
    rw [← List.append_assoc] at hsplit
    exact Glyph.decode_encode_of_append hsplit
  have htaken : Glyph.decode (Glyph.encode taken) = taken :=
    Glyph.decode_encode_front (Glyph.decode_encode_of_append hsplit)
  have hbytes : rest = Glyph.encode blanks ++ (Glyph.encode taken ++ Glyph.encode left) := by
    rw [← Glyph.encode_decode rest, hsplit, Glyph.encode_append, Glyph.encode_append]
  have hplace : f.position =
      .behind file (front ++ Glyph.encode blanks ++ Glyph.encode taken) := by
    have hstands : StandsIn ⟨f.position, left⟩ file text :=
      (hc.trans (.skipLayout c)).trans ⟨taken, hskip, hposition⟩
    refine hstands.position_eq ?_
    rw [htext, hbytes]
    simp only [List.append_assoc]
  refine ⟨_, _, _, hbytes, ?_, ?_, ?_⟩
  · intro b hb
    rw [← Glyph.isBlank_ofByte]
    exact Glyph.forall_mem_encode (fun g => Glyph.isAscii_of_isBlank) hblanks b hb
  · rwa [hleft, htaken]
  · have hwhole : front ++ rest =
        front ++ Glyph.encode blanks ++ Glyph.encode taken ++ Glyph.encode left := by
      rw [hbytes]
      simp only [List.append_assoc]
    rw [hwhole, Position.atOffset_append, hplace]

/-- A scan cuts the lines ahead into pieces, up to the end or to what cannot be read. The tokens are
those of the pieces, each at its place. -/
theorem exists_cut (hc : c.StandsIn file text) (htext : text = front ++ rest)
    (hrest : c.rest = Glyph.decode rest) (hline : EndsLine rest) :
    ∃ ps left, Cut rest ps left ∧ c.scan.tokens = Piece.located file front ps ∧
      (c.scan.fault = none → left = []) ∧
      ∀ f ∈ c.scan.fault, f.IsFoundIn file (front ++ Piece.texts ps) left := by
  revert front rest
  fun_induction scan c with
  | case1 c f h =>
    intro front rest htext hrest hline
    refine ⟨[], rest, .nil rest, rfl, ?_, ?_⟩
    · intro hnone
      cases hnone
    · intro f' hf
      cases hf
      rw [show Piece.texts [] = [] from rfl, List.append_nil]
      exact isFoundIn_of_next hc htext hrest hline h
  | case2 c t d h ht =>
    intro front rest htext hrest hline
    obtain ⟨gap, behind, hsplit, hd, hp⟩ := exists_piece_of_next hrest hline h
    have hposition := position_of_next hc htext hsplit h hd
    obtain rfl := hp.last ht
    refine ⟨[⟨gap, t.toLexeme⟩], [], hsplit ▸ .cons hp (fun _ => rfl) (.nil []), ?_, fun _ => rfl,
      fun f hf => by cases hf⟩
    rw [Piece.located, Piece.located, ← hposition]
  | case3 c t d h ht _ later ih =>
    intro front rest htext hrest hline
    obtain ⟨gap, behind, hsplit, hd, hp⟩ := exists_piece_of_next hrest hline h
    have hposition := position_of_next hc htext hsplit h hd
    rw [hsplit] at hline
    have hfront : text = (front ++ Piece.text ⟨gap, t.toLexeme⟩) ++ behind := by
      rw [htext, hsplit, List.append_assoc]
    obtain ⟨ps, left, hcut, htokens, hnone, hfound⟩ :=
      ih (hc.trans (.next h)) hfront hd hline.of_append
    refine ⟨⟨gap, t.toLexeme⟩ :: ps, left, hsplit ▸ .cons hp (fun he => absurd he ht) hcut, ?_,
      hnone, ?_⟩
    · rw [Piece.located, ← hposition]
      exact congrArg (List.cons t) htokens
    · intro f hf
      have hf' := hfound f hf
      rwa [List.append_assoc] at hf'

end Cursor

/-! ## Sources -/

/-- The tokens of a source of at most 2³² - 3 bytes are in the order of their places. -/
theorem pairwise_tokens (file : Bytes) {source : Bytes} (h : source.length ≤ UInt32.size - 3) :
    (scan file source).tokens.Pairwise fun t u => t.position.Before u.position := by
  refine Cursor.pairwise_scan (Cursor.Reaches.refl _) ?_
  have hsize : UInt32.size = 4294967296 := rfl
  rw [Bytes.line, List.length_append, List.length_singleton]
  omega

/-- A source, with the newline that is read behind it, is cut into pieces from its start, one for
each token. The token has the lexeme of the piece and the place of the offset at which it starts,
behind the gap. If there is a fault, it is found in what is left behind the pieces, and else nothing
is left. No other pieces can be cut off. The tokens of a source of at most 2³² - 3 bytes come one
after the other, in the order of lines and columns. -/
theorem scan_located (file source : Bytes) :
    (∃ ps left, Cut (Bytes.line source) ps left ∧
        (scan file source).tokens.length = ps.length ∧
        (∀ before p after, ps = before ++ p :: after →
          (scan file source).tokens[before.length]? =
            some ⟨p.lexeme,
              .atOffset file (Bytes.line source) (Piece.texts before ++ p.gap).length⟩) ∧
        ((scan file source).fault = none → left = []) ∧
        (∀ d ∈ (scan file source).fault, d.IsFoundIn file (Piece.texts ps) left) ∧
        ∀ ps' left', Cut (Bytes.line source) ps' left' → ps'.length = ps.length → ps' = ps) ∧
      (source.length ≤ UInt32.size - 3 →
        (scan file source).tokens.Pairwise fun t u => t.position.Before u.position) := by
  refine ⟨?_, pairwise_tokens file⟩
  obtain ⟨ps, left, hcut, htokens, hnone, hfound⟩ :=
    Cursor.exists_cut (c := .ofSource file source) (Cursor.Reaches.refl _)
      (List.nil_append (Bytes.line source)).symm rfl (endsLine_line source)
  refine ⟨ps, left, hcut, ?_, ?_, hnone, hfound, fun ps' left' => hcut.unique⟩
  · rw [scan, htokens, Piece.length_located]
  · intro before p after hps
    have hwhole : Bytes.line source =
        (Piece.texts before ++ p.gap) ++ (p.lexeme.written ++ (Piece.texts after ++ left)) := by
      rw [hcut.text_eq, hps, Piece.texts, List.flatMap_append, List.flatMap_cons, Piece.text]
      simp only [List.append_assoc]
      rfl
    rw [scan, htokens, hps, Piece.getElem?_located, hwhole, Position.atOffset_append]
    rfl

/-- A character of several bytes takes one column, and so does a byte that belongs to none. What
stands behind the point of a number and is no digit is to blame for it. -/
theorem scan_located_of_wide_glyphs :
    let source := bytes "PRINT \"é\" # " ++ [0xC3, 0x0A] ++ bytes " X 7.é"
    ((scan [] source).tokens.Pairwise fun t u => t.position.Before u.position) ∧
      (scan [] source).tokens.map (fun t => (t.position.line, t.position.column)) =
        [(1, 1), (1, 7), (1, 14), (2, 2)] ∧
      (scan [] source).fault = some ⟨⟨[], 2, 6⟩, .missingFraction⟩ := by
  intro source
  refine ⟨(scan_located [] source).2 ?_, ?_, ?_⟩ <;> decide +kernel

end Teeny
