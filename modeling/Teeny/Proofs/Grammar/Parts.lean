import Teeny.Proofs.Grammar.Acceptance

/-!
# The code of a part of a program

Where an expression or a condition stands in a program (`Statements.Holds`), and what the generator
emits as it reads it. The lexemes in front of the part lead to a state in which the lexemes of the
part come with the code of the part, and with nothing else but what opens the code around it
(`State.Emits`). An accepted source is read to its end, so that is what happens in its run
(`Run.emissions_of_part`).
-/

namespace Teeny

/-- A part of a program that is computed: an expression, or expressions that are compared. -/
inductive Part where
  | value (e : Expression)
  | condition (c : Condition)

namespace Part

def lexemes : Part → List Lexeme
  | value e => e.lexemes
  | condition c => c.lexemes

def emissions : Part → List Emission
  | value e => e.emissions false
  | condition c => c.emissions

end Part

/-! ## Where parts stand -/

/-- The lexemes of comparisons in a row. -/
def Condition.linkLexemes (links : List ({ o : Operator // o.isRelational = true } × Expression)) :
    List Lexeme :=
  links.flatMap fun link => .ofOperator link.1.1 :: link.2.lexemes

/-- An expression that is compared stands behind the lexemes `front` of the condition. -/
inductive Condition.Compares (c : Condition) : List Lexeme → Expression → Prop where
  | first : Compares c [] c.chain.first
  | later {links more : List ({ o : Operator // o.isRelational = true } × Expression)}
    {link : { o : Operator // o.isRelational = true } × Expression}
    (h : c.chain.rest = links ++ link :: more) :
    Compares c (c.chain.first.lexemes ++ (linkLexemes links ++ [.ofOperator link.1.1])) link.2

namespace Statements

/-- A part stands behind the lexemes `front` of the statements. -/
inductive Holds : Statements → List Lexeme → Part → Prop where
  | print (newline : Bool) (value : Expression) (blank : Nat) (rest : Statements) :
    Holds (.simple (.printValue newline value) blank rest)
      [.ofKeyword (Simple.printWord newline)] (.value value)
  | assignment (x : Identifier) (value : Expression) (blank : Nat) (rest : Statements) :
    Holds (.simple (.assignment x value) blank rest)
      [.ofKeyword .LET, .ofIdentifier x, .ofOperator .assign] (.value value)
  | condition (b : Block) (c : Condition) (blank : Nat) (body : Statements) (blankBehind : Nat)
    (rest : Statements) :
    Holds (.block b c blank body blankBehind rest) [.ofKeyword b.firstWord] (.condition c)
  | compared (b : Block) {c : Condition} (blank : Nat) (body : Statements) (blankBehind : Nat)
    (rest : Statements) {front : List Lexeme} {e : Expression} (h : c.Compares front e) :
    Holds (.block b c blank body blankBehind rest) (.ofKeyword b.firstWord :: front) (.value e)
  | later (first : Simple) (blank : Nat) {rest : Statements} {front : List Lexeme} {part : Part}
    (h : Holds rest front part) :
    Holds (.simple first blank rest) ((simple first blank nil).lexemes ++ front) part
  | inside (b : Block) (c : Condition) (blank : Nat) {body : Statements} (blankBehind : Nat)
    (rest : Statements) {front : List Lexeme} {part : Part} (h : Holds body front part) :
    Holds (.block b c blank body blankBehind rest)
      ((.ofKeyword b.firstWord :: (c.lexemes ++
        (.ofKeyword b.thenWord :: Lexeme.lineEnd blank))) ++ front) part
  | behind (b : Block) (c : Condition) (blank : Nat) (body : Statements) (blankBehind : Nat)
    {rest : Statements} {front : List Lexeme} {part : Part} (h : Holds rest front part) :
    Holds (.block b c blank body blankBehind rest)
      ((block b c blank body blankBehind nil).lexemes ++ front) part

variable {st : Statements} {front : List Lexeme} {part : Part}

/-- Statements start with a word, so a part has a word in front of it. -/
theorem Holds.exists_word (h : st.Holds front part) : ∃ k ls, front = .ofKeyword k :: ls := by
  have happend : ∀ {st : Statements} (more : List Lexeme), st ≠ nil →
      ∃ k ls, st.lexemes ++ more = .ofKeyword k :: ls := by
    intro st more hst
    rcases st.nil_or_word with rfl | ⟨k, ls, hls⟩
    · exact absurd rfl hst
    · exact ⟨k, ls ++ more, by rw [hls]; rfl⟩
  cases h with
  | later first blank h => exact happend _ (by simp)
  | behind b c blank body blankBehind h => exact happend _ (by simp)
  | _ => exact ⟨_, _, rfl⟩

/-- The lexemes of statements, with those of a part among them. -/
theorem Holds.exists_lexemes (h : st.Holds front part) :
    ∃ more, st.lexemes = front ++ (part.lexemes ++ more) := by
  induction h with
  | print newline value blank rest =>
    exact ⟨Lexeme.lineEnd blank ++ rest.lexemes, by simp [lexemes, Simple.lexemes, Part.lexemes]⟩
  | assignment x value blank rest =>
    exact ⟨Lexeme.lineEnd blank ++ rest.lexemes, by simp [lexemes, Simple.lexemes, Part.lexemes]⟩
  | condition b c blank body blankBehind rest =>
    exact ⟨.ofKeyword b.thenWord :: Lexeme.lineEnd blank ++ body.lexemes ++
      .ofKeyword b.lastWord :: Lexeme.lineEnd blankBehind ++ rest.lexemes,
      by simp [lexemes, Part.lexemes]⟩
  | @compared b c blank body blankBehind rest front e h =>
    obtain ⟨more, hmore⟩ : ∃ more, c.lexemes = front ++ (e.lexemes ++ more) := by
      rw [c.lexemes_eq]
      cases h with
      | first => exact ⟨_, rfl⟩
      | @later links more link h =>
        exact ⟨Condition.linkLexemes more, by simp [h, Condition.linkLexemes]⟩
    exact ⟨more ++ .ofKeyword b.thenWord :: Lexeme.lineEnd blank ++ body.lexemes ++
      .ofKeyword b.lastWord :: Lexeme.lineEnd blankBehind ++ rest.lexemes,
      by simp [lexemes, Part.lexemes, hmore]⟩
  | later first blank h ih =>
    obtain ⟨more, hmore⟩ := ih
    exact ⟨more, by simp [lexemes, hmore]⟩
  | inside b c blank blankBehind rest h ih =>
    obtain ⟨more, hmore⟩ := ih
    exact ⟨more ++ .ofKeyword b.lastWord :: Lexeme.lineEnd blankBehind ++ rest.lexemes,
      by simp [lexemes, hmore]⟩
  | behind b c blank body blankBehind h ih =>
    obtain ⟨more, hmore⟩ := ih
    exact ⟨more, by simp [lexemes, hmore]⟩

end Statements

/-! ## What is emitted as a part is read -/

/-- What the generator may emit with the first token of a part: nothing, or a piece of code that
opens a parenthesis. -/
def Part.IsLead (lead : List Emission) : Prop :=
  lead = [] ∨ ∃ text, lead = [.code (text ++ bytes "(")]

namespace State

variable {bound : Option Nat} {place : Position}

/-- The lexemes `front` lead to a state in which the lexemes of a part come with its code. -/
def Emits (bound : Option Nat) (place : Position) (s : State) (front : List Lexeme)
    (part : Part) : Prop :=
  ∃ ok es s', (s.follow bound place front).Yields ok es s' ∧
    ∃ ok' lead s'', Part.IsLead lead ∧
      (s'.follow bound place part.lexemes).Yields ok' (lead ++ part.emissions) s''

theorem Emits.prepend {s s' : State} {ls front : List Lexeme} {part : Part} {ok : Prop}
    {es : List Emission} (h : (s.follow bound place ls).Yields ok es s')
    (hpart : s'.Emits bound place front part) : s.Emits bound place (ls ++ front) part := by
  obtain ⟨ok', es', s'', hfront, hrest⟩ := hpart
  exact ⟨_, _, s'', yields_append h hfront, hrest⟩

/-- Where an operand may start, an expression comes with its code alone. -/
theorem emits_value {s : State} {front : List Lexeme} {p : Purpose} {ok : Prop}
    {es : List Emission} {s' : State}
    (h : (s.follow bound place front).Yields ok es (s'.enter (.operand p false)))
    (e : Expression) : s.Emits bound place front (.value e) :=
  ⟨_, _, _, h, _, [], _, Or.inl rfl, yields_expression s' false e⟩

theorem isLead_block (b : Block) : Part.IsLead [.code b.lead] := by
  cases b with
  | conditional => exact Or.inr ⟨bytes "if ", rfl⟩
  | loop => exact Or.inr ⟨bytes "while ", rfl⟩

/-- The first expression of a condition comes with the code that opens it, the later ones come
alone. -/
theorem emits_compares {s : State} (hs : s.phase = .statement) (b : Block) {c : Condition}
    {front : List Lexeme} {e : Expression} (h : c.Compares front e) :
    s.Emits bound place (.ofKeyword b.firstWord :: front) (.value e) := by
  cases h with
  | first =>
    exact ⟨_, _, _, yields_step (step_firstWord hs b), _, [.code b.lead], _, isLead_block b,
      yields_opening b c.chain.first.lexemes_ne_nil (yields_expression s false c.chain.first)⟩
  | @later links more link h =>
    have hfront : ((s.enter (.operand (.condition b false) false)).follow bound place
        (c.chain.first.lexemes ++ (Condition.linkLexemes links ++ [.ofOperator link.1.1]))).Yields
          _ _ (s.enter (.operand (.condition b true) false)) :=
      yields_append (yields_expression s false c.chain.first)
        (yields_append (yields_comparisons s b false links)
          (yields_step (step_comparison s b _ link.1.2)))
    have hne := List.append_ne_nil_of_left_ne_nil c.chain.first.lexemes_ne_nil
      (Condition.linkLexemes links ++ [.ofOperator link.1.1])
    exact emits_value (yields_cons (step_firstWord hs b) (yields_opening b hne hfront)) link.2

/-- What is emitted inside a block stays the same with its first word. -/
theorem Emits.opened {s : State} {b : Block} {front : List Lexeme} {part : Part}
    (hfront : ∃ k ls, front = .ofKeyword k :: ls)
    (h : (s.openBlock b).Emits bound place front part) :
    (s.enter (.blockBody b)).Emits bound place front part := by
  obtain ⟨k, ls, rfl⟩ := hfront
  obtain ⟨ok, es, s', hyields, hrest⟩ := h
  exact ⟨_, _, s', yields_opened s b hyields, hrest⟩

/-- Each part of statements is emitted as it is read. -/
theorem emits_of_holds {s : State} (hs : s.phase = .statement) {st : Statements}
    {front : List Lexeme} {part : Part} (h : st.Holds front part) :
    s.Emits bound place front part := by
  induction h generalizing s with
  | print newline value blank rest =>
    have hword : (Simple.printWord newline).phase? = some (.print newline) := by
      cases newline <;> rfl
    refine ⟨_, _, _, yields_step (step_word hs hword), _, _, _, Or.inr ?_,
      yields_printed s newline value⟩
    exact ⟨bytes "printf(\"%.2f" ++ Simple.ending newline ++ bytes "\", (float)",
      by cases newline <;> rfl⟩
  | assignment x value blank rest =>
    exact emits_value (yields_append (yields_name hs (k := .LET) rfl x)
      (yields_step (step_assign s x))) value
  | condition b c blank body blankBehind rest =>
    exact ⟨_, _, _, yields_step (step_firstWord hs b), _, [.code b.lead], _, isLead_block b,
      yields_condition s b c⟩
  | compared b blank body blankBehind rest h => exact emits_compares hs b h
  | later first blank h ih =>
    exact .prepend (yields_statements hs (.simple first blank .nil))
      (ih ((phase_mentionAll ..).trans hs))
  | inside b c blank blankBehind rest h ih =>
    exact .prepend (yields_heading hs b c blank) (.opened h.exists_word (ih rfl))
  | behind b c blank body blankBehind h ih =>
    exact .prepend (yields_statements hs (.block b c blank body blankBehind .nil))
      (ih ((phase_mentionAll ..).trans hs))

/-- So is each part of a program. -/
theorem emits_of_program {p : Program} {front : List Lexeme} {part : Part}
    (h : p.body.Holds front part) :
    start.Emits bound place (List.replicate p.blank .newline ++ front) part := by
  obtain ⟨l, ls, hls, hl⟩ : ∃ l ls,
      List.replicate p.blank Lexeme.newline ++ front = l :: ls ∧ l.kind ≠ .eof := by
    cases hblank : p.blank with
    | zero =>
      obtain ⟨k, ls, rfl⟩ := h.exists_word
      exact ⟨_, _, rfl, by simp⟩
    | succ n => exact ⟨_, _, rfl, by simp [Lexeme.newline]⟩
  obtain ⟨ok, es, s', hfront, hpart⟩ := Emits.prepend
    (.of_eq (@follow_blank bound place (start.enter .statement) rfl p.blank))
    (emits_of_holds rfl h)
  rw [hls] at hfront ⊢
  have hopened : (start.follow bound place (l :: ls)).Yields ok (preamble ++ es) s' := by
    rw [follow_opening ls hl]
    exact hfront.after
  exact ⟨_, _, s', hopened, hpart⟩

end State

/-! ## What an accepted source emits as a part is read -/

/-- A move that is not refused with what follows it has gone on. -/
theorem Move.Yields.of_not_refused {m : Move} {next : State → Move} {ok : Prop}
    {es : List Emission} {s : State} (h : m.Yields ok es s)
    (hgoes : ∀ d, (m.andThen next).progress ≠ .refused d) : ok := by
  refine Classical.byContradiction fun hok => ?_
  obtain ⟨d, hd⟩ := h.stops hok
  exact hgoes d (refused_andThen hd next)

theorem State.emissions_follow {bound : Option Nat} (place : Position) (ts : List Token) :
    (start.follow bound place (ts.map Token.toLexeme)).emissions =
      (start.steps bound ts).emissions := by
  have hmoved := @follow_toLexeme bound place .start ts
  rw [relocate_start] at hmoved
  rw [hmoved]
  rfl

/-- The tokens of a part in an accepted source, and what is emitted as they are read. -/
theorem Run.emissions_of_part {bound : Option Nat} {file source : Bytes} {p : Program}
    (haccepted : (ofSource bound file source).failure = none)
    (hp : p.lexemes = (scan file source).tokens.map Token.toLexeme) {front : List Lexeme}
    {part : Part} (h : p.body.Holds front part) :
    ∃ before tokens after lead later,
      (scan file source).tokens = before ++ (tokens ++ after) ∧
      before.map Token.toLexeme = List.replicate p.blank .newline ++ front ∧
      tokens.map Token.toLexeme = part.lexemes ∧ Part.IsLead lead ∧
      (State.start.steps bound (before ++ tokens)).emissions =
        (State.start.steps bound before).emissions ++ (lead ++ part.emissions) ∧
      (ofSource bound file source).emissions =
        (State.start.steps bound (before ++ tokens)).emissions ++ later := by
  obtain ⟨more, hmore⟩ := h.exists_lexemes
  have hlexemes : (scan file source).tokens.map Token.toLexeme =
      (List.replicate p.blank .newline ++ front) ++ (part.lexemes ++ (more ++ [.eof])) := by
    rw [← hp, Program.lexemes, hmore]
    simp
  obtain ⟨before, rest, htokens, hbefore, hrest⟩ := List.map_eq_append_iff.1 hlexemes
  obtain ⟨tokens, after, rfl, hpart, -⟩ := List.map_eq_append_iff.1 hrest
  -- the whole source is read, so neither what stands before the part nor the part is refused
  obtain ⟨hfault, s, hfinished, -⟩ := failure_eq_none_iff.1 haccepted
  obtain ⟨s', hfollow, -⟩ := State.follow_of_steps (.start []) hfinished
  obtain ⟨ok, es, s₁, hfront, ok', lead, s₂, hlead, hread⟩ :=
    @State.emits_of_program bound (.start []) p front part h
  rw [hlexemes, ← List.append_assoc, State.follow_append] at hfollow
  have hboth := State.yields_append hfront hread
  have hok := hboth.of_not_refused fun d hd => by
    rw [hfollow] at hd
    cases hd
  obtain ⟨later, hlater⟩ := (State.start.steps bound (before ++ tokens)).exists_emissions_andThen
    fun s => s.steps bound after
  refine ⟨before, tokens, after, lead, later, htokens, hbefore, hpart, hlead, ?_, ?_⟩
  · rw [← State.emissions_follow (.start []), ← State.emissions_follow (.start []),
      List.map_append, hbefore, hpart, hboth.goes hok, hfront.goes hok.1]
  · rw [(ofSource_eq_steps bound file source).1, Scan.acted_of_fault_none hfault, htokens,
      ← List.append_assoc, State.steps_append, hlater]

end Teeny
