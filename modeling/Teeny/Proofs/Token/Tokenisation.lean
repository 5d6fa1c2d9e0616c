import Teeny.Proofs.Token.Spelling

/-!
# Cutting a source into lexemes

A source, with the newline that is read behind it, is cut into pieces: a gap and a lexeme each. A
gap is blank, and in front of the end of a line it may also be a comment; a lexeme has the form of
its kind and is as long as it can be; and the end of the input is the last lexeme and no other.
`Tokenisation` says so of the bytes alone.

A source that is scanned without a fault has such a tokenisation (`exists_tokenisation`). Where
there is one, the scan finds no fault and the lexemes of it (`Tokenisation.scan`). And there is at
most one, down to the bytes of the gaps (`Tokenisation.unique`).
-/

namespace Teeny

/-! ## Pieces of a source -/

/-- The byte that starts a comment. -/
def Bytes.hash : UInt8 := 35

/-- What may stand in front of a lexeme of a kind: blanks, and in front of the end of a line also a
comment behind them. -/
inductive Gap (kind : Kind) : Bytes → Prop where
  | blank {blanks : Bytes} (h : ∀ b ∈ blanks, Bytes.isBlank b = true) : Gap kind blanks
  | comment {blanks text : Bytes} (h : ∀ b ∈ blanks, Bytes.isBlank b = true)
    (hkind : kind = .newline) (htext : ∀ b ∈ text, b ≠ Bytes.newline) :
    Gap kind (blanks ++ Bytes.hash :: text)

/-- In front of all but the end of a line there are only blanks. -/
theorem Gap.isBlank {kind : Kind} {gap : Bytes} (h : Gap kind gap) (hk : kind ≠ .newline) :
    ∀ b ∈ gap, Bytes.isBlank b = true := by
  cases h with
  | blank h => exact h
  | comment h hkind htext => exact absurd hkind hk

/-- A stretch of a source: a lexeme and what stands in front of it. -/
structure Piece where
  gap : Bytes
  lexeme : Lexeme
  deriving DecidableEq

namespace Piece

/-- A piece as it stands in a source. -/
def text (p : Piece) : Bytes := p.gap ++ p.lexeme.written

/-- Pieces in a row. -/
def texts (ps : List Piece) : Bytes := ps.flatMap text

end Piece

/-- The pieces are what a text is cut into. -/
structure Tokenisation (text : Bytes) (ps : List Piece) : Prop where
  covers : Piece.texts ps = text
  gaps : ∀ p ∈ ps, Gap p.lexeme.kind p.gap
  forms : ∀ p ∈ ps, p.lexeme.HasForm
  longest : ∀ before p after, ps = before ++ p :: after →
    Stops p.lexeme.isExtendedBy (Piece.texts after)
  ends : ∃ before last, ps = before ++ [last] ∧ last.lexeme.kind = .eof ∧
    ∀ p ∈ before, p.lexeme.kind ≠ .eof

namespace Tokenisation

variable {text : Bytes} {p : Piece} {ps : List Piece}

theorem ne_nil (h : Tokenisation text ps) : ps ≠ [] := by
  obtain ⟨before, last, rfl, -⟩ := h.ends
  simp

/-- The first piece of a tokenisation is the end of the input and nothing follows it, or the other
pieces are a tokenisation of what follows it. -/
theorem cons_iff :
    Tokenisation text (p :: ps) ↔
      Gap p.lexeme.kind p.gap ∧ p.lexeme.HasForm ∧
        Stops p.lexeme.isExtendedBy (Piece.texts ps) ∧ text = p.text ++ Piece.texts ps ∧
          if p.lexeme.kind = .eof then ps = [] else Tokenisation (Piece.texts ps) ps := by
  constructor
  · intro h
    refine ⟨h.gaps p (List.mem_cons_self ..), h.forms p (List.mem_cons_self ..),
      h.longest [] p ps rfl, h.covers.symm, ?_⟩
    obtain ⟨before, last, hsplit, hlast, hbefore⟩ := h.ends
    cases before with
    | nil =>
      obtain ⟨rfl, rfl⟩ := List.cons.inj hsplit
      rw [if_pos hlast]
    | cons q before =>
      obtain ⟨rfl, rfl⟩ := List.cons.inj hsplit
      obtain ⟨hp, hbefore⟩ := List.forall_mem_cons.1 hbefore
      rw [if_neg hp]
      refine ⟨rfl, fun q hq => h.gaps q (List.mem_cons_of_mem p hq),
        fun q hq => h.forms q (List.mem_cons_of_mem p hq), ?_, before, last, rfl, hlast, hbefore⟩
      intro front q back hback
      exact h.longest (p :: front) q back (congrArg (List.cons p) hback)
  · intro h
    obtain ⟨hgap, hform, hstop, rfl, hrest⟩ := h
    by_cases hp : p.lexeme.kind = .eof
    · rw [if_pos hp] at hrest
      subst hrest
      refine ⟨rfl, List.forall_mem_singleton.2 hgap, List.forall_mem_singleton.2 hform, ?_,
        [], p, rfl, hp, List.forall_mem_nil _⟩
      intro front q back hback
      cases front with
      | nil =>
        obtain ⟨rfl, rfl⟩ := List.cons.inj hback
        exact hstop
      | cons r front => simp at hback
    · rw [if_neg hp] at hrest
      obtain ⟨before, last, hsplit, hlast, hbefore⟩ := hrest.ends
      refine ⟨rfl, List.forall_mem_cons.2 ⟨hgap, hrest.gaps⟩,
        List.forall_mem_cons.2 ⟨hform, hrest.forms⟩, ?_,
        p :: before, last, congrArg (List.cons p) hsplit, hlast,
        List.forall_mem_cons.2 ⟨hp, hbefore⟩⟩
      intro front q back hback
      cases front with
      | nil =>
        obtain ⟨rfl, rfl⟩ := List.cons.inj hback
        exact hstop
      | cons r front => exact hrest.longest front q back (List.cons.inj hback).2

end Tokenisation

/-! ## Gaps -/

namespace Cursor

/-- What is left behind blanks and a comment. -/
theorem rest_skipLayout (c : Cursor) :
    c.skipLayout.rest =
      if (c.rest.dropWhile Glyph.isBlank).head? = some (.char '#') then
        (c.rest.dropWhile Glyph.isBlank).dropWhile (· ≠ .char '\n')
      else c.rest.dropWhile Glyph.isBlank := by
  have hskip : ∀ (c : Cursor) (p : Glyph → Bool), (c.skipWhile p).rest = c.rest.dropWhile p :=
    fun c p => drop_length_takeWhile c.rest
  unfold skipLayout
  dsimp only
  rw [hskip]
  split
  next => rw [hskip, hskip]
  next => exact hskip c _

theorem rest_skipLayout_of_solid {c : Cursor} {blanks rest : List Glyph}
    (h : c.rest = blanks ++ rest) (hblanks : ∀ g ∈ blanks, g.isBlank = true)
    (hrest : ∀ g ∈ rest.head?, g.isSolid = true) : c.skipLayout.rest = rest := by
  have hstop : Stops Glyph.isBlank rest := by
    intro g hg
    have hsolid := (Bool.and_eq_true_iff.1 (hrest g hg)).1
    simpa using hsolid
  rw [rest_skipLayout, h, dropWhile_run hblanks hstop, if_neg]
  intro hhead
  have hsolid := hrest _ hhead
  revert hsolid
  decide

theorem rest_skipLayout_of_comment {c : Cursor} {blanks text rest : List Glyph}
    (h : c.rest = blanks ++ (.char '#' :: text ++ .char '\n' :: rest))
    (hblanks : ∀ g ∈ blanks, g.isBlank = true) (htext : ∀ g ∈ text, g ≠ .char '\n') :
    c.skipLayout.rest = .char '\n' :: rest := by
  have hstop : Stops Glyph.isBlank (.char '#' :: text ++ .char '\n' :: rest) :=
    stops_cons.2 (by decide)
  rw [rest_skipLayout, h, dropWhile_run hblanks hstop, if_pos (by rfl)]
  refine dropWhile_run ?_ (stops_cons.2 (by decide))
  refine List.forall_mem_cons.2 ⟨by decide, fun g hg => ?_⟩
  exact decide_eq_true (htext g hg)

/-- The glyphs in front of the next lexeme: blanks, or blanks and a comment up to the end of its
line. -/
theorem exists_layout (c : Cursor) :
    ∃ blanks comment, c.rest = blanks ++ (comment ++ c.skipLayout.rest) ∧
      (∀ g ∈ blanks, g.isBlank = true) ∧
      (comment = [] ∨
        ∃ text, comment = .char '#' :: text ∧ (∀ g ∈ text, g ≠ .char '\n') ∧
          Stops (· ≠ .char '\n') c.skipLayout.rest) := by
  have hsplit := List.takeWhile_append_dropWhile (p := Glyph.isBlank) (l := c.rest)
  have hblanks : ∀ g ∈ c.rest.takeWhile Glyph.isBlank, g.isBlank = true :=
    fun g hg => of_mem_takeWhile hg
  rw [rest_skipLayout]
  split
  next hhead =>
    obtain ⟨more, hmore⟩ := List.head?_eq_some_iff.1 hhead
    have hcomment := List.takeWhile_append_dropWhile (p := fun g => g ≠ Glyph.char '\n') (l := more)
    refine ⟨_, .char '#' :: more.takeWhile (· ≠ .char '\n'), ?_, hblanks, Or.inr ⟨_, rfl, ?_, ?_⟩⟩
    · rw [hmore, List.dropWhile_cons_of_pos (by decide), List.cons_append, hcomment, ← hmore,
        hsplit]
    · intro g hg
      have hne := of_mem_takeWhile hg
      exact of_decide_eq_true hne
    · exact stops_dropWhile _
  next => exact ⟨_, [], hsplit.symm, hblanks, Or.inl rfl⟩

end Cursor

namespace Glyph

theorem isAscii_of_isBlank {g : Glyph} (h : g.isBlank = true) : g.isAscii = true := by
  simp only [isBlank, Bool.or_eq_true, decide_eq_true_iff] at h
  rcases h with (rfl | rfl) | rfl <;> rfl

/-- The bytes of glyphs of a class of ASCII are those of the class. -/
theorem forall_mem_encode {p : Glyph → Bool} (hp : ∀ g, p g = true → g.isAscii = true)
    {gs : List Glyph} (h : ∀ g ∈ gs, p g = true) : ∀ b ∈ encode gs, p (ofByte b) = true := by
  intro b hb
  obtain ⟨g, hg, hmem⟩ := List.mem_flatMap.1 hb
  obtain ⟨a, ha, rfl⟩ := exists_ofByte (hp g (h g hg))
  rw [bytes_ofByte ha] at hmem
  cases List.mem_singleton.1 hmem
  exact h _ hg

/-- A text without a newline has no glyph that is one, and the other way round. -/
theorem newline_mem_decode_iff {text : Bytes} :
    char '\n' ∈ decode text ↔ Bytes.newline ∈ text := by
  constructor
  · intro h
    rw [← encode_decode text]
    exact List.mem_flatMap.2 ⟨_, h, List.mem_singleton_self _⟩
  · intro h
    rw [← encode_decode text] at h
    obtain ⟨g, hg, hmem⟩ := List.mem_flatMap.1 h
    rwa [eq_ofByte_of_mem hg hmem (by decide)] at hg

end Glyph

theorem Bytes.toNat_lt_of_isBlank {b : UInt8} (h : isBlank b = true) : b.toNat < 0x80 := by
  rw [← Glyph.isBlank_ofByte] at h
  exact Glyph.toNat_lt_of_isAscii (Glyph.isAscii_of_isBlank h)

/-- A newline byte stands in no lexeme but the end of a line. -/
theorem Lexeme.eq_newline_of_mem {l : Lexeme} (hform : l.HasForm)
    (h : Bytes.newline ∈ l.written) : l = .newline := by
  obtain ⟨kind, text⟩ := l
  cases kind with
  | unknown => exact False.elim hform
  | unassigned extra => exact False.elim hform
  | eof =>
    obtain rfl : text = [] := hform
    cases h
  | newline => exact congrArg (Lexeme.mk .newline) hform
  | number =>
    have hdigits : ∀ ds, Bytes.isDigits ds = true → Bytes.newline ∉ ds := fun ds hds hmem =>
      absurd ((Bytes.isDigits_iff.1 hds).2 _ hmem) (by decide)
    rcases hform with hdigits' | ⟨whole, part, rfl, hwhole, hpart⟩
    · exact absurd h (hdigits text hdigits')
    · rcases List.mem_append.1 h with h | h
      · exact absurd h (hdigits whole hwhole)
      · rcases List.mem_cons.1 h with h | h
        · exact absurd h (by decide)
        · exact absurd h (hdigits part hpart)
  | name => exact absurd (Bytes.isWordPart_of_isWord hform.1 _ h) (by decide)
  | string =>
    have hquote : Bytes.newline ∉ bytes "\"" := by decide
    have htext : Bytes.newline ∉ text := fun hmem => absurd (hform.2 _ hmem) (by decide)
    rcases List.mem_append.1 h with h | h
    · rcases List.mem_append.1 h with h | h
      · exact absurd h hquote
      · exact absurd h htext
    · exact absurd h hquote
  | keyword k =>
    obtain rfl : text = k.spelling := hform
    revert h
    cases k <;> decide
  | operator o =>
    obtain rfl : text = o.spelling := hform
    revert h
    cases o <;> decide

theorem Lexeme.written_ne_nil {l : Lexeme} (hform : l.HasForm) (hk : l.kind ≠ .eof) :
    l.written ≠ [] := by
  obtain ⟨taken, hreads, htaken⟩ := @reads_of_spelled l [] hform (fun b hb => by cases hb) (by simp)
  intro hnil
  rw [hnil] at htaken
  exact hk (hreads.eof_iff.2 htaken.symm)

/-- What is left where a lexeme is read starts with a solid glyph. -/
theorem Reads.isSolid_head {l : Lexeme} {taken rest : List Glyph} (h : Reads l taken rest) :
    ∀ g ∈ (taken ++ rest).head?, g.isSolid = true := by
  by_cases hk : l.kind = .eof
  · rw [h.eof_iff.1 hk]
    intro g hg
    cases hg
  · obtain ⟨g, more, rfl, hsolid⟩ := h.exists_solid hk
    intro x hx
    cases hx
    exact hsolid

/-! ## One piece -/

/-- A piece stands in front of a text: its parts are as they should be, the text does not go on with
its lexeme, and nothing is left behind the end of the input. -/
structure Piece.Stands (p : Piece) (rest : Bytes) : Prop where
  gap : Gap p.lexeme.kind p.gap
  form : p.lexeme.HasForm
  longest : Stops p.lexeme.isExtendedBy rest
  last : p.lexeme.kind = .eof → rest = []

/-- Whether a text is whole lines, of the first of which a part may be missing. -/
def EndsLine (text : Bytes) : Prop := ∀ b ∈ text.getLast?, b = Bytes.newline

theorem EndsLine.of_append {front rest : Bytes} (h : EndsLine (front ++ rest)) :
    EndsLine rest := by
  intro b hb
  apply h
  rw [List.getLast?_append, Option.mem_def.1 hb]
  rfl

theorem EndsLine.newline_mem {text : Bytes} (h : EndsLine text) (hne : text ≠ []) :
    Bytes.newline ∈ text := by
  have hlast := List.getLast?_eq_some_getLast hne
  rw [← h _ hlast]
  exact List.getLast_mem hne

/-- What is blank and ends with a newline is nothing at all. -/
theorem Gap.eq_nil {kind : Kind} {gap : Bytes} (h : Gap kind gap) (hk : kind ≠ .newline)
    (hline : EndsLine gap) : gap = [] := by
  refine Decidable.byContradiction fun hne => ?_
  exact absurd (h.isBlank hk _ (hline.newline_mem hne)) (by decide)

/-- The last piece of a line is the end of it. -/
theorem Piece.eq_newline (p : Piece) (hform : p.lexeme.HasForm) (hk : p.lexeme.kind ≠ .eof)
    (hline : EndsLine p.text) : p.lexeme = .newline :=
  Lexeme.eq_newline_of_mem hform
    (hline.of_append.newline_mem (Lexeme.written_ne_nil hform hk))

namespace Cursor

/-- The layout in front of a piece is its gap. -/
theorem rest_skipLayout_of_gap {c : Cursor} {l : Lexeme} {gap rest : Bytes}
    (hc : c.rest = Glyph.decode (gap ++ (l.written ++ rest))) (hgap : Gap l.kind gap)
    (hform : l.HasForm)
    (hsolid : ∀ g ∈ (Glyph.decode (l.written ++ rest)).head?, g.isSolid = true) :
    c.skipLayout.rest = Glyph.decode (l.written ++ rest) := by
  have hascii : ∀ {blanks : Bytes}, (∀ b ∈ blanks, Bytes.isBlank b = true) →
      ∀ b ∈ blanks, b.toNat < 0x80 := fun h b hb => Bytes.toNat_lt_of_isBlank (h b hb)
  have hblanks : ∀ {blanks : Bytes}, (∀ b ∈ blanks, Bytes.isBlank b = true) →
      ∀ g ∈ blanks.map Glyph.ofByte, g.isBlank = true := by
    intro blanks h g hg
    obtain ⟨b, hb, rfl⟩ := List.mem_map.1 hg
    rw [Glyph.isBlank_ofByte]
    exact h b hb
  cases hgap with
  | blank h =>
    rw [Glyph.decode_ascii_append (hascii h)] at hc
    exact rest_skipLayout_of_solid hc (hblanks h) hsolid
  | @comment blanks text h hkind htext =>
    -- the comment ends at the newline, which is all there is of the lexeme
    have hwritten : l.written = [Bytes.newline] := by
      rw [Lexeme.eq_newline (Lexeme.hasForm_iff.1 hform) hkind]
      rfl
    have hnewline : Glyph.decode (Bytes.newline :: rest) = .char '\n' :: Glyph.decode rest :=
      Glyph.decode_cons_ascii (by decide) rest
    rw [hwritten, List.append_assoc, Glyph.decode_ascii_append (hascii h), List.cons_append,
      Glyph.decode_cons_ascii (by decide), List.singleton_append,
      Glyph.decode_append_ascii text (by decide), hnewline] at hc
    rw [hwritten, List.singleton_append, hnewline]
    refine rest_skipLayout_of_comment hc (hblanks h) ?_
    intro g hg he
    subst he
    exact htext _ (Glyph.newline_mem_decode_iff.1 hg) rfl

/-- A piece at the start of a text is read from it. -/
theorem next_of_piece {c : Cursor} {p : Piece} {rest : Bytes}
    (hc : c.rest = Glyph.decode (p.text ++ rest)) (hp : p.Stands rest) :
    ∃ t d, c.next = .ok (t, d) ∧ t.toLexeme = p.lexeme ∧ d.rest = Glyph.decode rest := by
  obtain ⟨taken, hreads, htaken⟩ := reads_of_spelled hp.form hp.longest hp.last
  have hsolid := hreads.isSolid_head
  rw [Piece.text, List.append_assoc] at hc
  rw [← htaken] at hsolid
  have hskip := rest_skipLayout_of_gap hc hp.gap hp.form hsolid
  rw [htaken] at hskip
  exact ⟨_, _, lexeme_of_reads hreads hskip, rfl, rfl⟩

/-- Behind a comment in a text of whole lines the end of its line is read. -/
theorem kind_of_comment {c d : Cursor} {t : Token} {text : Bytes} {blanks body : List Glyph}
    (hc : c.rest = Glyph.decode text) (hline : EndsLine text)
    (hlayout : c.rest = blanks ++ (.char '#' :: body ++ c.skipLayout.rest))
    (hblanks : ∀ g ∈ blanks, g.isBlank = true) (hbody : ∀ g ∈ body, g ≠ .char '\n')
    (hend : Stops (· ≠ .char '\n') c.skipLayout.rest) (h : c.next = .ok (t, d)) :
    t.kind = .newline := by
  cases hrest : c.skipLayout.rest with
  | nil =>
    -- the text would end with the comment, and so not with a newline
    exfalso
    rw [hrest, List.append_nil, hc] at hlayout
    have hne : text ≠ [] := by
      intro hnil
      rw [hnil] at hlayout
      simp [Glyph.decode, Glyph.decodeFrom] at hlayout
    have hmem := Glyph.newline_mem_decode_iff.2 (hline.newline_mem hne)
    rw [hlayout] at hmem
    rcases List.mem_append.1 hmem with hmem | hmem
    · have hblank := hblanks _ hmem
      revert hblank
      decide
    · rcases List.mem_cons.1 hmem with he | hmem
      · cases he
      · exact hbody _ hmem rfl
  | cons g more =>
    rw [hrest, stops_cons, decide_eq_false_iff_not, ne_eq, Decidable.not_not] at hend
    subst hend
    have hread := lexeme_of_reads (.newline more) hrest
    rw [← next, h] at hread
    obtain ⟨rfl, -⟩ := Prod.mk.inj (Except.ok.inj hread)
    rfl

/-- What is read from a text of whole lines is a piece at its start. -/
theorem exists_piece_of_next {c d : Cursor} {t : Token} {text : Bytes}
    (hc : c.rest = Glyph.decode text) (hline : EndsLine text) (h : c.next = .ok (t, d)) :
    ∃ gap rest, text = Piece.text ⟨gap, t.toLexeme⟩ ++ rest ∧ d.rest = Glyph.decode rest ∧
      Piece.Stands ⟨gap, t.toLexeme⟩ rest := by
  obtain ⟨taken, hreads, hskip, -⟩ := lexeme_eq_ok_iff.1 h
  obtain ⟨blanks, comment, hlayout, hblanks, hcomment⟩ := c.exists_layout
  have hsplit : Glyph.decode text = (blanks ++ (comment ++ taken)) ++ d.rest := by
    rw [← hc, hlayout, hskip]
    simp only [List.append_assoc]
  have hd : Glyph.decode (Glyph.encode d.rest) = d.rest := Glyph.decode_encode_of_append hsplit
  rw [← hd] at hreads
  obtain ⟨hform, hwritten, hstop⟩ := spelled_of_reads hreads
  have htext : text = Glyph.encode blanks ++ Glyph.encode comment ++ t.written ++
      Glyph.encode d.rest := by
    rw [← hwritten, ← Glyph.encode_decode text, hsplit]
    simp only [Glyph.encode_append, List.append_assoc]
  have hblank : ∀ b ∈ Glyph.encode blanks, Bytes.isBlank b = true := by
    intro b hb
    rw [← Glyph.isBlank_ofByte]
    exact Glyph.forall_mem_encode (fun g => Glyph.isAscii_of_isBlank) hblanks b hb
  have hlast : t.kind = .eof → Glyph.encode d.rest = [] := by
    intro ht
    rw [rest_of_next_eof h ht, Glyph.encode_nil]
  refine ⟨Glyph.encode blanks ++ Glyph.encode comment, Glyph.encode d.rest, htext, hd.symm, ?_,
    hform, hstop, hlast⟩
  rcases hcomment with rfl | ⟨body, rfl, hbody, hend⟩
  · rw [Glyph.encode_nil, List.append_nil]
    exact .blank hblank
  · refine .comment hblank (kind_of_comment hc hline hlayout hblanks hbody hend h) ?_
    intro b hb he
    subst he
    obtain ⟨g, hg, hmem⟩ := List.mem_flatMap.1 hb
    have hg' : g ∈ Glyph.decode text := by
      rw [hsplit]
      simp [hg]
    exact hbody g hg (Glyph.eq_ofByte_of_mem hg' hmem (by decide))

end Cursor

/-- Of the pieces that stand at the start of a text there is one only. -/
theorem Piece.Stands.unique {p q : Piece} {rest rest' : Bytes} (hp : p.Stands rest)
    (hq : q.Stands rest') (h : p.text ++ rest = q.text ++ rest') : p = q ∧ rest = rest' := by
  -- both are what a cursor on the text reads, so they leave the same bytes
  obtain ⟨t, d, hnext, htp, hd⟩ := @Cursor.next_of_piece ⟨.start [], _⟩ p rest rfl hp
  obtain ⟨t', d', hnext', htq, hd'⟩ := @Cursor.next_of_piece ⟨.start [], _⟩ q rest' rfl hq
  rw [← h, hnext] at hnext'
  obtain ⟨rfl, rfl⟩ := Prod.mk.inj (Except.ok.inj hnext')
  have hlexeme : p.lexeme = q.lexeme := htp.symm.trans htq
  have hrest : rest = rest' := by
    rw [← Glyph.encode_decode rest, ← hd, hd', Glyph.encode_decode]
  subst hrest
  have hgap := List.append_cancel_right h
  rw [text, text, hlexeme] at hgap
  exact ⟨congr (congrArg Piece.mk (List.append_cancel_right hgap)) hlexeme, rfl⟩

/-! ## All pieces -/

namespace Cursor

/-- A text of whole lines that is scanned without a fault has a tokenisation. -/
theorem exists_tokenisation {c : Cursor} {text : Bytes} (hc : c.rest = Glyph.decode text)
    (hline : EndsLine text) (hfault : c.scan.fault = none) : ∃ ps, Tokenisation text ps := by
  revert text
  fun_induction scan c with
  | case1 c f hnext => cases hfault
  | case2 c t d hnext ht =>
    intro text hc hline
    obtain ⟨gap, rest, htext, hd, hp⟩ := exists_piece_of_next hc hline hnext
    obtain rfl := hp.last ht
    exact ⟨[⟨gap, t.toLexeme⟩],
      Tokenisation.cons_iff.2 ⟨hp.gap, hp.form, hp.longest, htext, by rw [if_pos ht]⟩⟩
  | case3 c t d hnext ht _ later ih =>
    intro text hc hline
    obtain ⟨gap, rest, htext, hd, hp⟩ := exists_piece_of_next hc hline hnext
    rw [htext] at hline
    obtain ⟨ps, hps⟩ := ih hfault hd hline.of_append
    obtain rfl := hps.covers
    exact ⟨⟨gap, t.toLexeme⟩ :: ps,
      Tokenisation.cons_iff.2 ⟨hp.gap, hp.form, hp.longest, htext, by rwa [if_neg ht]⟩⟩

end Cursor

namespace Tokenisation

variable {text : Bytes} {p : Piece} {ps ps' : List Piece}

/-- The first piece of a tokenisation stands in front of the others. -/
theorem stands (h : Tokenisation text (p :: ps)) : p.Stands (Piece.texts ps) := by
  obtain ⟨hgap, hform, hstop, -, hrest⟩ := cons_iff.1 h
  refine ⟨hgap, hform, hstop, ?_⟩
  intro hk
  rw [if_pos hk] at hrest
  rw [hrest]
  rfl

/-- The first piece of a tokenisation is what is read next. -/
theorem next (h : Tokenisation text (p :: ps)) (c : Cursor) (hc : c.rest = Glyph.decode text) :
    ∃ t d, c.next = .ok (t, d) ∧ t.toLexeme = p.lexeme ∧
      d.rest = Glyph.decode (Piece.texts ps) := by
  rw [← h.covers] at hc
  exact Cursor.next_of_piece hc h.stands

/-- A text with a tokenisation is scanned without a fault, into the lexemes of it. -/
theorem scan {c : Cursor} (h : Tokenisation text ps) (hc : c.rest = Glyph.decode text) :
    c.scan.fault = none ∧ c.scan.tokens.map Token.toLexeme = ps.map Piece.lexeme := by
  induction ps generalizing c text with
  | nil => exact absurd rfl h.ne_nil
  | cons p ps ih =>
    obtain ⟨t, d, hnext, ht, hd⟩ := h.next c hc
    obtain ⟨-, -, -, -, hrest⟩ := cons_iff.1 h
    rw [← ht] at hrest
    rw [Cursor.scan_of_ok hnext, List.map_cons, ← ht]
    by_cases hk : t.kind = .eof
    · rw [if_pos hk] at hrest ⊢
      rw [hrest]
      exact ⟨rfl, rfl⟩
    · rw [if_neg hk] at hrest ⊢
      obtain ⟨hfault, hlexemes⟩ := ih hrest hd
      exact ⟨hfault, congrArg (List.cons t.toLexeme) hlexemes⟩

/-- A text has at most one tokenisation. -/
theorem unique (h : Tokenisation text ps) (h' : Tokenisation text ps') : ps = ps' := by
  induction ps generalizing text ps' with
  | nil => exact absurd rfl h.ne_nil
  | cons p ps ih =>
    cases ps' with
    | nil => exact absurd rfl h'.ne_nil
    | cons q qs =>
      obtain ⟨hpiece, htexts⟩ := h.stands.unique h'.stands (h.covers.trans h'.covers.symm)
      obtain ⟨-, -, -, -, hrest⟩ := cons_iff.1 h
      obtain ⟨-, -, -, -, hrest'⟩ := cons_iff.1 h'
      subst hpiece
      by_cases hk : p.lexeme.kind = .eof
      · rw [if_pos hk] at hrest hrest'
        rw [hrest, hrest']
      · rw [if_neg hk] at hrest hrest'
        rw [← htexts] at hrest'
        rw [ih hrest hrest']

/-- In a text that ends with a newline, the end of a line is the lexeme in front of the end of the
input. -/
theorem lexemes_eq (h : Tokenisation text ps) (hline : EndsLine text) (hne : text ≠ []) :
    ∃ ls, ps.map Piece.lexeme = ls ++ [.newline, .eof] := by
  obtain ⟨before, last, rfl, hlast, hbefore⟩ := h.ends
  have heof : last.lexeme = .eof :=
    Lexeme.eq_eof (Lexeme.hasForm_iff.1 (h.forms last (by simp))) hlast
  have htext : text = Piece.texts before ++ last.gap := by
    rw [← h.covers, Piece.texts, List.flatMap_append, List.flatMap_singleton, Piece.text, heof]
    exact congrArg _ (List.append_nil _)
  have hgap : last.gap = [] := by
    rw [htext] at hline
    exact (h.gaps last (by simp)).eq_nil (by rw [hlast]; simp) hline.of_append
  rw [hgap, List.append_nil] at htext
  rcases List.eq_nil_or_concat before with rfl | ⟨front, p, hsplit⟩
  · exact absurd htext hne
  · rw [List.concat_eq_append] at hsplit
    subst hsplit
    have hp : p.lexeme = .newline := by
      rw [htext, Piece.texts, List.flatMap_append, List.flatMap_singleton] at hline
      exact p.eq_newline (h.forms p (by simp)) (hbefore p (by simp)) hline.of_append
    refine ⟨front.map Piece.lexeme, ?_⟩
    simp only [List.map_append, List.map_cons, List.map_nil, hp, heof, List.append_assoc,
      List.cons_append, List.nil_append]

/-- Behind a text that ends with a newline another one may stand: its pieces follow those of the
first text, without the end of the input between them. -/
theorem append {text' : Bytes} (h : Tokenisation text ps) (hline : EndsLine text)
    (h' : Tokenisation text' ps') : Tokenisation (text ++ text') (ps.dropLast ++ ps') := by
  induction ps generalizing text with
  | nil => exact absurd rfl h.ne_nil
  | cons p ps ih =>
    obtain ⟨hgap, hform, hstop, rfl, hrest⟩ := cons_iff.1 h
    by_cases hk : p.lexeme.kind = .eof
    · rw [if_pos hk] at hrest
      subst hrest
      have htext : p.text = p.gap := by
        rw [Piece.text, Lexeme.eq_eof (Lexeme.hasForm_iff.1 hform) hk]
        exact List.append_nil _
      rw [show Piece.texts [] = [] from rfl, List.append_nil, htext] at hline ⊢
      rw [hgap.eq_nil (by simp [hk]) hline]
      exact h'
    · rw [if_neg hk] at hrest
      have hpieces := ih hrest hline.of_append
      rw [List.dropLast_cons_of_ne_nil hrest.ne_nil, List.cons_append, List.append_assoc]
      refine cons_iff.2 ⟨hgap, hform, ?_, by rw [hpieces.covers], ?_⟩
      · rw [hpieces.covers]
        cases htexts : Piece.texts ps with
        | nil =>
          -- `p` is the last of its text, so it is the newline there, which nothing extends
          rw [htexts, List.append_nil] at hline
          intro b _
          rw [p.eq_newline hform hk hline]
          rfl
        | cons b more =>
          rw [htexts] at hstop
          exact stops_cons.2 (stops_cons.1 hstop)
      · rw [if_neg hk, hpieces.covers]
        exact hpieces

end Tokenisation

theorem endsLine_line (source : Bytes) : EndsLine (Bytes.line source) := by
  intro b hb
  rw [Bytes.line, List.getLast?_append] at hb
  cases hb
  rfl

/-- A source that is scanned without a fault has a tokenisation with the lexemes of the scan, and
the end of a line is the last of them but the end of the input; a source that has a tokenisation is
scanned without a fault into the lexemes of it; and there are no two tokenisations of a source. -/
theorem scan_iff_tokenisation (file source : Bytes) :
    ((scan file source).fault = none →
        ∃ ps, Tokenisation (Bytes.line source) ps ∧
          (scan file source).tokens.map Token.toLexeme = ps.map Piece.lexeme ∧
          ∃ ls, ps.map Piece.lexeme = ls ++ [.newline, .eof]) ∧
      (∀ ps, Tokenisation (Bytes.line source) ps →
        (scan file source).fault = none ∧
          (scan file source).tokens.map Token.toLexeme = ps.map Piece.lexeme) ∧
      ∀ ps ps', Tokenisation (Bytes.line source) ps → Tokenisation (Bytes.line source) ps' →
        ps = ps' := by
  have hscan : ∀ ps, Tokenisation (Bytes.line source) ps →
      (scan file source).fault = none ∧
        (scan file source).tokens.map Token.toLexeme = ps.map Piece.lexeme :=
    fun ps hps => hps.scan rfl
  refine ⟨?_, hscan, fun ps ps' => Tokenisation.unique⟩
  intro hfault
  obtain ⟨ps, hps⟩ := Cursor.exists_tokenisation rfl (endsLine_line source) hfault
  exact ⟨ps, hps, (hscan ps hps).2, hps.lexemes_eq (endsLine_line source) (by simp [Bytes.line])⟩

/-- A comment may end with the first byte of a longer character, and the newline behind it still
ends the line. -/
theorem scan_iff_tokenisation_of_cut_comment :
    ∃ ps, Tokenisation (Bytes.line (bytes "A<=1.5 # \"" ++ [0xC3])) ps ∧
      ps.map Piece.lexeme =
        [⟨.name, bytes "A"⟩, ⟨.operator .lessEqual, bytes "<="⟩, ⟨.number, bytes "1.5"⟩, .newline,
          .eof] := by
  obtain ⟨ps, hps, hlexemes, -⟩ :=
    (scan_iff_tokenisation [] (bytes "A<=1.5 # \"" ++ [0xC3])).1 (by decide +kernel)
  exact ⟨ps, hps, hlexemes.symm.trans (by decide +kernel)⟩

end Teeny
