import Teeny.Proofs.Grammar.Acceptance
import Teeny.Proofs.Token.Writing

/-!
# Refusals come as early as they can

Where a token is refused, the tokens before it are the start of a program that is accepted, and
together with it they are not (`refused_at_first_fault`). The second half holds because a step looks
at nothing behind its token. For the first, every state can be led to an accepted end: the
statement at hand is finished in the shortest way (`completable`), the open blocks are closed, and
each jump that still lacks a label gets one (`exists_labels`).
-/

namespace Teeny

/-! ## Lexemes to go on with -/

namespace Lexeme

/-- Whether a lexeme may stand in a program, before its end. -/
def Usable (l : Lexeme) : Prop := l.isWellFormed = true ∧ l.kind ≠ .eof

theorem usable_newline : newline.Usable := ⟨rfl, by simp [newline]⟩

theorem usable_ofKeyword (k : Keyword) : (ofKeyword k).Usable := ⟨decide_eq_true rfl, by simp⟩

theorem usable_ofOperator (o : Operator) : (ofOperator o).Usable := ⟨decide_eq_true rfl, by simp⟩

theorem usable_ofIdentifier (x : Identifier) : (ofIdentifier x).Usable := ⟨x.isName, by simp⟩

theorem usable_ofNumeral (n : Numeral) : (ofNumeral n).Usable := ⟨n.isNumeral, by simp⟩

end Lexeme

/-- The number zero. -/
def Numeral.zero : Numeral := ⟨bytes "0", by decide⟩

/-- Any number of small letters is a name, since reserved words are written in capitals. -/
theorem Bytes.isName_replicate (n : Nat) : isName (List.replicate (n + 1) 97) = true := by
  have hencode : Glyph.encode (List.replicate (n + 1) (.char 'a')) = List.replicate (n + 1) 97 := by
    rw [Glyph.encode, List.flatMap_replicate]
    exact List.flatten_replicate_singleton
  have hletters : ∀ g ∈ List.replicate (n + 1) (Glyph.char 'a'), g = .char 'a' := fun g hg =>
    List.eq_of_mem_replicate hg
  have hdecode : Glyph.decode (List.replicate (n + 1) 97) =
      List.replicate (n + 1) (.char 'a') := by
    rw [← hencode]
    exact Glyph.decode_encode fun g hg => by
      rw [hletters g hg]
      rfl
  have hword : Glyph.isWord (List.replicate (n + 1) (.char 'a')) = true := by
    refine Bool.and_eq_true_iff.2 ⟨rfl, List.all_eq_true.2 fun g hg => ?_⟩
    rw [List.eq_of_mem_replicate hg]
    rfl
  have hkeyword : Keyword.ofSpelling? (List.replicate (n + 1) 97) = none := by
    refine List.find?_eq_none.2 fun k _ hk => ?_
    -- no reserved word has that first letter
    have hhead := congrArg List.head? (of_decide_eq_true hk)
    cases k <;> cases hhead
  rw [isName, hdecode, hword, hkeyword]
  rfl

/-- A name that is longer than `n`. -/
def Identifier.longerThan (n : Nat) : Identifier :=
  ⟨List.replicate (n + 1) 97, Bytes.isName_replicate n⟩

/-- There is a name that is not among the given ones: one that is longer than all of them. -/
theorem Identifier.exists_fresh (names : List Bytes) : ∃ x : Identifier, x.text ∉ names := by
  refine ⟨.longerThan names.flatten.length, fun hmem => ?_⟩
  have hlength : (Identifier.longerThan names.flatten.length).text.length ≤
      names.flatten.length :=
    (List.sublist_flatten_of_mem hmem).length_le
  rw [longerThan, List.length_replicate] at hlength
  omega

/-! ## From any state to the end -/

/-- Whether some usable lexemes lead from one state to another. -/
def Leads (place : Position) (s s' : State) : Prop :=
  ∃ (ls : List Lexeme) (es : List Emission), (∀ l ∈ ls, l.Usable) ∧
    s.follow none place ls = ⟨es, .more s'⟩

theorem Leads.refl (place : Position) (s : State) : Leads place s s :=
  ⟨[], [], List.forall_mem_nil _, rfl⟩

theorem Leads.trans {place : Position} {s s' s'' : State} (h : Leads place s s')
    (h' : Leads place s' s'') : Leads place s s'' := by
  obtain ⟨ls, es, hls, hfollow⟩ := h
  obtain ⟨ms, fs, hms, hfollow'⟩ := h'
  refine ⟨ls ++ ms, es ++ fs, List.forall_mem_append.2 ⟨hls, hms⟩, ?_⟩
  rw [State.follow_append, hfollow, Move.andThen_more, hfollow']
  rfl

/-- States that lead to where the program may end. -/
def Completable (place : Position) (s : State) : Prop :=
  ∃ s', Leads place s s' ∧ s'.phase = .statement ∧ s'.blocks = []

namespace Completable

variable {place : Position} {s s' : State} {es : List Emission}

theorem of_step {l : Lexeme} (hl : l.Usable) (h : s.step none ⟨l, place⟩ = ⟨es, .more s'⟩)
    (hs' : Completable place s') : Completable place s := by
  obtain ⟨s'', hleads, hend⟩ := hs'
  have hfirst : Leads place s s' :=
    ⟨[l], es, List.forall_mem_singleton.2 hl, (State.follow_singleton s l).trans h⟩
  exact ⟨s'', hfirst.trans hleads, hend⟩

/-- A line end leads to the next statement. -/
theorem of_newline {phase : Phase} {t : State}
    (h : (s.enter phase).step none ⟨.newline, place⟩ = ⟨es, .more (t.enter .statement)⟩)
    (ht : Completable place (t.enter .statement)) : Completable place (s.enter phase) :=
  of_step Lexeme.usable_newline h ht

/-- Between statements, the open blocks are closed one after the other. -/
theorem statement (s : State) : Completable place (s.enter .statement) := by
  obtain ⟨phase, blocks, assigned, labels, jumps⟩ := s
  induction blocks generalizing phase with
  | nil => exact ⟨_, .refl place _, rfl, rfl⟩
  | cons b outer ih =>
    have hclosing : (State.enter ⟨phase, b :: outer, assigned, labels, jumps⟩ .statement).step none
        ⟨.ofKeyword b.lastWord, place⟩ =
          ⟨[], .more (State.enter ⟨phase, outer, assigned, labels, jumps⟩ .blockEnd)⟩ := by
      cases b <;> rfl
    exact of_step (Lexeme.usable_ofKeyword _) hclosing (of_newline rfl (ih phase))

theorem blockBody (s : State) (b : Block) : Completable place (s.enter (.blockBody b)) := by
  have hclosing : (s.enter (.blockBody b)).step none ⟨.ofKeyword b.lastWord, place⟩ =
      ⟨[.line (bytes ") \x7b")], .more (s.enter .blockEnd)⟩ := by
    cases b <;> rfl
  exact of_step (Lexeme.usable_ofKeyword _) hclosing (of_newline rfl (statement s))

theorem blockLine (s : State) (b : Block) : Completable place (s.enter (.blockLine b)) := by
  have hline : (s.enter (.blockLine b)).step none ⟨.newline, place⟩ =
      ⟨[], .more (s.enter (.blockBody b))⟩ := rfl
  exact of_step Lexeme.usable_newline hline (blockBody s b)

/-- A condition that compares goes on to the block. -/
theorem compared (s : State) (b : Block) :
    Completable place (s.enter (.operator (.condition b true))) := by
  have hopening : (s.enter (.operator (.condition b true))).step none
      ⟨.ofKeyword b.thenWord, place⟩ = ⟨[], .more (s.enter (.blockLine b))⟩ := by
    cases b <;> rfl
  exact of_step (Lexeme.usable_ofKeyword _) hopening (blockLine s b)

theorem operator (s : State) (p : Purpose) : Completable place (s.enter (.operator p)) := by
  cases p with
  | print => exact of_newline rfl (statement s)
  | assignment => exact of_newline rfl (statement s)
  | condition b compares =>
    cases compares with
    | true => exact compared s b
    | false =>
      have hright : Completable place (s.enter (.operand (.condition b true) false)) :=
        of_step (Lexeme.usable_ofNumeral .zero) rfl (compared s b)
      exact of_step (Lexeme.usable_ofOperator .equal)
        (State.step_comparison s b false rfl) hright

theorem operand (s : State) (p : Purpose) (afterSign : Bool) :
    Completable place (s.enter (.operand p afterSign)) :=
  of_step (Lexeme.usable_ofNumeral .zero) rfl (operator s p)

theorem named (s : State) (use : Naming) (x : Bytes) (position : Position) :
    Completable place (s.enter (.named use x position)) := by
  cases use with
  | label => exact of_newline rfl (statement { s with labels := s.labels ++ [x] })
  | jump => exact of_newline rfl (statement { s with jumps := s.jumps ++ [(x, position)] })
  | input => exact of_newline rfl (statement ((s.enter _).assign x))
  | assignment =>
    exact of_step (Lexeme.usable_ofOperator .assign) rfl
      (operand ((s.enter _).assign x) .assignment false)

/-- A statement that needs a name gets one that is not a label yet. -/
theorem name (s : State) (use : Naming) : Completable place (s.enter (.name use)) := by
  obtain ⟨x, hx⟩ := Identifier.exists_fresh s.labels
  have hname : (s.enter (.name use)).step none ⟨.ofIdentifier x, place⟩ =
      ⟨[], .more (s.enter (.named use x.text place))⟩ := if_neg fun h => hx h.2
  exact of_step (Lexeme.usable_ofIdentifier x) hname (named s use x.text place)

end Completable

/-- From every state the program can be brought to an end. -/
theorem completable (place : Position) (s : State) : Completable place s := by
  rw [← State.enter_of_phase (rfl : s.phase = s.phase)]
  -- a value that is missing is zero, and what ends the statement follows
  cases s.phase with
  | opening => exact .of_newline rfl (.statement s)
  | statement => exact .statement s
  | print newline =>
    exact .of_step (Lexeme.usable_ofNumeral .zero) rfl (.operator s .print)
  | condition b =>
    exact .of_step (Lexeme.usable_ofNumeral .zero) rfl (.operator s (.condition b false))
  | name use => exact .name s use
  | named use x position => exact .named s use x position
  | operand p afterSign => exact .operand s p afterSign
  | signed p => exact .of_step (Lexeme.usable_ofNumeral .zero) rfl (.operator s p)
  | operator p => exact .operator s p
  | blockLine b => exact .blockLine s b
  | blockBody b => exact .blockBody s b
  | blockEnd => exact .of_newline rfl (.statement s)
  | lineEnd => exact .of_newline rfl (.statement s)

/-! ## Labels for the jumps that lack one -/

/-- The declaration of a label leads on, unless the label is there already. -/
theorem Leads.label (place : Position) {s : State} (hs : s.phase = .statement) (x : Identifier)
    (hx : x.text ∉ s.labels) : Leads place s (s.mention place (.label x.text)) := by
  have hadmits : s.admitsAll place (Simple.label x).mentions = true := by
    simp [Simple.mentions, State.admitsAll, State.admits, hx]
  refine ⟨_, _, ?_, (State.yields_simple hs (.label x)).goes hadmits⟩
  exact List.forall_mem_cons.2 ⟨Lexeme.usable_ofKeyword _, List.forall_mem_cons.2
    ⟨Lexeme.usable_ofIdentifier x, List.forall_mem_singleton.2 Lexeme.usable_newline⟩⟩

/-- Labels can be declared for any names. -/
theorem exists_labels (place : Position) {s : State} (hs : s.phase = .statement)
    {names : List Bytes} (hnames : ∀ x ∈ names, ∃ y : Identifier, y.text = x) :
    ∃ s', Leads place s s' ∧ s'.phase = .statement ∧ s'.blocks = s.blocks ∧
      s'.jumps = s.jumps ∧ (∀ x ∈ s.labels, x ∈ s'.labels) ∧ ∀ x ∈ names, x ∈ s'.labels := by
  induction names generalizing s with
  | nil => exact ⟨s, .refl place s, hs, rfl, rfl, fun x hx => hx, List.forall_mem_nil _⟩
  | cons x names ih =>
    obtain ⟨⟨y, rfl⟩, hmore⟩ := List.forall_mem_cons.1 hnames
    -- a second label of one name would be refused
    by_cases hy : y.text ∈ s.labels
    · obtain ⟨s', hleads, hphase, hblocks, hjumps, hkept, hall⟩ := ih hs hmore
      exact ⟨s', hleads, hphase, hblocks, hjumps, hkept,
        List.forall_mem_cons.2 ⟨hkept _ hy, hall⟩⟩
    · obtain ⟨s', hleads, hphase, hblocks, hjumps, hkept, hall⟩ :=
        ih (s := s.mention place (.label y.text)) hs hmore
      refine ⟨s', (Leads.label place hs y hy).trans hleads, hphase, hblocks, hjumps, ?_, ?_⟩
      · exact fun z hz => hkept z (List.mem_append_left _ hz)
      · refine List.forall_mem_cons.2 ⟨hkept _ ?_, hall⟩
        exact List.mem_append_right _ (List.mem_singleton_self _)

/-- Only names are jumped to. -/
theorem Statements.exists_of_jump {st : Statements} {x : Bytes} (h : .jump x ∈ st.mentions) :
    ∃ y : Identifier, y.text = x := by
  induction st with
  | nil => cases h
  | simple first blank rest ih =>
    rcases List.mem_append.1 h with h | h
    · cases first with
      | printText newline text => cases h
      | printValue newline value =>
        obtain ⟨y, hy⟩ := Expression.use_of_mem_mentions _ h
        cases hy
      | label y =>
        cases List.mem_singleton.1 h
      | jump y =>
        cases List.mem_singleton.1 h
        exact ⟨y, rfl⟩
      | assignment y value =>
        rcases List.mem_cons.1 h with h | h
        · cases h
        · obtain ⟨z, hz⟩ := Expression.use_of_mem_mentions _ h
          cases hz
      | input y => cases List.mem_singleton.1 h
    · exact ih h
  | block b c blank body blankBehind rest ihbody ihrest =>
    rcases List.mem_append.1 h with h | h
    · rcases List.mem_append.1 h with h | h
      · obtain ⟨z, hz⟩ := Condition.use_of_mem_mentions _ h
        cases hz
      · exact ihbody h
    · exact ihrest h

/-- Usable lexemes that finish are those of a program. -/
theorem State.exists_program_of_follow {place : Position} {ls : List Lexeme} {s : State}
    (hls : ∀ l ∈ ls, l.Usable)
    (h : (start.follow none place (ls ++ [.eof])).progress = .finished s) :
    ∃ p : Program, p.lexemes = ls ++ [.eof] := by
  have hts : ∀ t ∈ ls.map fun l => (⟨l, place⟩ : Token), t.kind ≠ .eof := by
    intro t ht
    obtain ⟨l, hl, rfl⟩ := List.mem_map.1 ht
    exact (hls l hl).2
  have hwell : ∀ t ∈ (ls.map fun l => (⟨l, place⟩ : Token)) ++ [⟨.eof, place⟩],
      t.isWellFormed = true := by
    refine List.forall_mem_append.2 ⟨fun t ht => ?_, List.forall_mem_singleton.2 rfl⟩
    obtain ⟨l, hl, rfl⟩ := List.mem_map.1 ht
    exact (hls l hl).1
  rw [follow, List.map_append] at h
  obtain ⟨p, hp⟩ := exists_program_of_finished hts hwell h
  refine ⟨p, ?_⟩
  rw [hp, List.map_append, List.map_map]
  exact congrArg (· ++ [Lexeme.eof]) (List.map_id ls)

/-- Where a program may end, all jumps so far are to names: what has been read is a program, and
its tree knows what it jumps to. -/
theorem Leads.exists_of_jump {place : Position} {s : State} (h : Leads place .start s)
    (hs : s.phase = .statement) (hblocks : s.blocks = []) :
    ∀ x ∈ s.jumps.map Prod.fst, ∃ y : Identifier, y.text = x := by
  obtain ⟨ls, es, hls, hfollow⟩ := h
  have hfinished : (State.start.follow none place (ls ++ [.eof])).progress = .finished s := by
    rw [State.follow_append, hfollow, Move.andThen_more, State.follow_singleton,
      State.step_eof_of_statement hs hblocks]
    rfl
  obtain ⟨p, hp⟩ := State.exists_program_of_follow hls hfinished
  rw [← hp] at hfinished
  obtain ⟨-, -, phase, rfl⟩ := State.of_finished_program hfinished
  intro x hx
  have hjump : x ∈ State.start.jumps.map Prod.fst ∨ .jump x ∈ p.body.mentions :=
    (State.mem_mentionAll (fun s => s.jumps.map Prod.fst)
      fun _ _ _ => State.mem_jumps_mention).1 hx
  rcases hjump with hjump | hjump
  · cases hjump
  · exact Statements.exists_of_jump hjump

/-! ## Accepted continuations -/

/-- Usable lexemes that the generator goes along with are the start of an accepted source. -/
theorem exists_accepted {place : Position} {ls : List Lexeme} {es : List Emission} {s : State}
    (hls : ∀ l ∈ ls, l.Usable) (h : State.start.follow none place ls = ⟨es, .more s⟩)
    (file : Bytes) :
    ∃ source, (Run.ofSource none file source).failure = none ∧
      ls <+: (scan file source).tokens.map Token.toLexeme := by
  obtain ⟨s₁, hcompleted, hphase₁, hblocks₁⟩ := completable place s
  have hstart : Leads place .start s₁ := Leads.trans ⟨ls, es, hls, h⟩ hcompleted
  obtain ⟨s₂, hlabeled, hphase₂, hblocks₂, hjumps₂, -, hlabels₂⟩ :=
    exists_labels place hphase₁ (hstart.exists_of_jump hphase₁ hblocks₁)
  have hverdict : s₂.verdict = none := by
    rw [State.verdict_eq_none_iff, hjumps₂]
    exact hlabels₂
  obtain ⟨ms, fs, hms, hmore⟩ := hcompleted.trans hlabeled
  -- The source is the lexemes with spaces between them; a line end is always read behind it.
  have hsource := scan_writeAll file (List.forall_mem_append.2 ⟨hls, hms⟩)
  refine ⟨Lexeme.writeAll (ls ++ ms), ?_, ?_⟩
  · have hfollow : State.start.follow none place
        ((scan file (Lexeme.writeAll (ls ++ ms))).tokens.map Token.toLexeme) =
          ⟨es ++ (fs ++ State.epilogue), .finished s₂⟩ := by
      rw [hsource.2, List.append_assoc, State.follow_append, h, Move.andThen_more,
        State.follow_append, hmore, Move.andThen_more, State.follow_cons,
        State.step_newline hphase₂, Move.andThen_more, State.follow_singleton,
        State.step_eof_of_statement hphase₂ (hblocks₂.trans hblocks₁)]
      rfl
    obtain ⟨s', hsteps, hiff⟩ := State.steps_of_follow hfollow
    exact Run.failure_eq_none_iff.2
      ⟨hsource.1, s', congrArg Move.progress hsteps, hiff.2 hverdict⟩
  · rw [hsource.2, List.append_assoc]
    exact List.prefix_append ls _

/-- Lexemes one of which is refused are not the start of any accepted source. -/
theorem not_prefix_of_refused {place : Position} {ls : List Lexeme} {d : Diagnostic}
    (h : (State.start.follow none place ls).progress = .refused d) {file source : Bytes}
    (haccepted : (Run.ofSource none file source).failure = none) :
    ¬ ls <+: (scan file source).tokens.map Token.toLexeme := by
  rintro ⟨rest, hrest⟩
  obtain ⟨-, s, hfinished, -⟩ := Run.failure_eq_none_iff.1 haccepted
  obtain ⟨s', hfollow, -⟩ := State.follow_of_steps place hfinished
  rw [← hrest, State.follow_append] at hfollow
  cases hm : State.start.follow none place ls with
  | mk es progress =>
    rw [hm] at h hfollow
    cases h
    cases hfollow

/-- A single refusal of a source that can be read is the refusal of one of its tokens, behind
others that went through. -/
theorem exists_refused {file source : Bytes} {d : Diagnostic}
    (hfault : (scan file source).fault = none)
    (h : (Run.ofSource none file source).failure = some (.single d)) :
    ∃ before t after es s, (scan file source).tokens = before ++ t :: after ∧
      d.position = t.position ∧ State.start.steps none before = ⟨es, .more s⟩ ∧
        (s.step none t).progress = .refused d := by
  rcases Run.failure_cases none file source with ⟨f, hf, -⟩ | ⟨s, -, -, hs⟩ |
    ⟨before, t, after, es, s, d', hacted, hsteps, hrefused, hd⟩
  · rw [hfault] at hf
    cases hf
  · rw [hs] at h
    exact absurd h (s.verdict_ne_single d)
  · rw [hd] at h
    cases h
    rw [Scan.acted_of_fault_none hfault] at hacted
    exact ⟨before, t, after, es, s, hacted, (State.of_step_refused hrefused).1, hsteps, hrefused⟩

/-- The tokens of a source that have others behind them are usable. -/
theorem usable_of_scan {file source : Bytes} {before after : List Token} {t : Token}
    (hfault : (scan file source).fault = none)
    (h : (scan file source).tokens = before ++ t :: after) :
    ∀ l ∈ before.map Token.toLexeme, l.Usable := by
  obtain ⟨ts, e, hend, -, hts⟩ := Cursor.exists_eof_of_fault_none _ hfault
  -- The last token is the end of the input, and it is not among those before `t`.
  have hbefore : ∀ u ∈ before, u ∈ ts := by
    have hdrop := congrArg List.dropLast (hend.symm.trans h)
    rw [List.dropLast_concat, List.dropLast_append_of_ne_nil (List.cons_ne_nil t after)] at hdrop
    intro u hu
    rw [hdrop]
    exact List.mem_append_left _ hu
  intro l hl
  obtain ⟨u, hu, rfl⟩ := List.mem_map.1 hl
  refine ⟨Cursor.isWellFormed_of_mem_scan (.ofSource file source) u ?_, hts u (hbefore u hu)⟩
  rw [hend]
  exact List.mem_append_left _ (hbefore u hu)

/-- Without a bound on the nesting, and in a source that can be read, a single refusal is at a token
such that those before it are the start of an accepted source, and no accepted source, whatever its
bound, starts with them and it. -/
theorem refused_at_first_fault {maxDepth : Int} {file source : Bytes} {d : Diagnostic}
    (hdepth : maxDepth ≤ 0) (hfault : (scan file source).fault = none)
    (h : (Run.ofSource (Depth.bound maxDepth) file source).failure = some (.single d)) :
    ∃ i t, (scan file source).tokens[i]? = some t ∧ d.position = t.position ∧
      (∃ file' source', (Run.ofSource (Depth.bound maxDepth) file' source').failure = none ∧
        ((scan file source).tokens.take i).map Token.toLexeme <+:
          (scan file' source').tokens.map Token.toLexeme) ∧
      ∀ maxDepth' file' source',
        (Run.ofSource (Depth.bound maxDepth') file' source').failure = none →
          ¬ ((scan file source).tokens.take (i + 1)).map Token.toLexeme <+:
            (scan file' source').tokens.map Token.toLexeme := by
  have hbound : Depth.bound maxDepth = none := if_pos hdepth
  rw [hbound] at h ⊢
  obtain ⟨before, t, after, es, s, htokens, hposition, hsteps, hrefused⟩ :=
    exists_refused hfault h
  have htake : (scan file source).tokens.take before.length = before := by
    rw [htokens, List.take_left]
  have htake' : (scan file source).tokens.take (before.length + 1) = before ++ [t] := by
    rw [htokens, show before ++ t :: after = (before ++ [t]) ++ after by simp]
    exact List.take_left' (by simp)
  refine ⟨before.length, t, by rw [htokens]; simp, hposition, ?_, ?_⟩
  · have husable := usable_of_scan hfault htokens
    have hfollow := @State.follow_toLexeme none (.start []) .start before
    rw [State.relocate_start, hsteps] at hfollow
    obtain ⟨source', haccepted, hstarts⟩ := exists_accepted husable hfollow []
    rw [htake]
    exact ⟨[], source', haccepted, hstarts⟩
  · intro maxDepth' file' source' haccepted
    rw [htake']
    have hfollow := @State.follow_toLexeme none (.start []) .start (before ++ [t])
    rw [State.relocate_start, State.steps_append, hsteps, Move.andThen_more,
      State.steps_singleton] at hfollow
    have hprogress : (State.start.follow none (.start [])
        ((before ++ [t]).map Token.toLexeme)).progress =
          .refused (d.relocate fun _ => .start []) := by
      rw [hfollow, Move.relocate, Move.progress_after, hrefused]
      rfl
    exact not_prefix_of_refused hprogress (Run.accepted_unbounded haccepted)

/-- In `GOTO x`, `IF 1 THEN` the refusal is at `THEN`: what stands before it can still become a
program, with a comparison, a closed block and a label `x`. -/
theorem refused_at_first_fault_of_if :
    ∃ i t, (scan [] (bytes "GOTO x\nIF 1 THEN\n")).tokens[i]? = some t ∧
      (⟨[], 2, 6⟩ : Position) = t.position ∧
      (∃ file' source', (Run.ofSource (Depth.bound 0) file' source').failure = none ∧
        ((scan [] (bytes "GOTO x\nIF 1 THEN\n")).tokens.take i).map Token.toLexeme <+:
          (scan file' source').tokens.map Token.toLexeme) ∧
      ∀ maxDepth' file' source',
        (Run.ofSource (Depth.bound maxDepth') file' source').failure = none →
          ¬ ((scan [] (bytes "GOTO x\nIF 1 THEN\n")).tokens.take (i + 1)).map Token.toLexeme <+:
            (scan file' source').tokens.map Token.toLexeme := by
  have hfault : (scan [] (bytes "GOTO x\nIF 1 THEN\n")).fault = none := by
    decide +kernel
  have hrefused : (Run.ofSource (Depth.bound 0) [] (bytes "GOTO x\nIF 1 THEN\n")).failure =
      some (.single ⟨⟨[], 2, 6⟩, .expectedComparison ⟨.keyword .THEN, bytes "THEN"⟩⟩) := by
    decide +kernel
  exact refused_at_first_fault (Int.le_refl 0) hfault hrefused

end Teeny
