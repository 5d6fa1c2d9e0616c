import Teeny.Proofs.Generator.Relocation
import Teeny.Proofs.Grammar.Scope

/-!
# The generator on the lexemes of a tree

For each part of a program, what the generator does on the lexemes of that part: it goes on if the
names in it are in scope and the blocks in it do not nest too deeply, and has then emitted the code
of the part; otherwise it refuses one of its tokens. `Move.Yields` is the form all these facts have
and `Yields.andThen` chains them, so each proof follows the shape of its part.

The generator emits some code one token late. Each part is therefore taken together with the token
that completes its code: a statement with the end of its line, the statements of a block with the
word that closes it.
-/

namespace Teeny

/-! ## Moves that go on under a condition -/

/-- A token that is refused is refused whatever stands behind it. -/
theorem Move.refused_andThen {m : Move} {d : Diagnostic} (h : m.progress = .refused d)
    (next : State → Move) : (m.andThen next).progress = .refused d := by
  obtain ⟨es, progress⟩ := m
  cases h
  rfl

/-- A move that emits `es` and goes on in `s` if `ok` holds, and refuses a token if not. -/
structure Move.Yields (m : Move) (ok : Prop) (es : List Emission) (s : State) : Prop where
  goes : ok → m = ⟨es, .more s⟩
  stops : ¬ ok → ∃ d, m.progress = .refused d

namespace Move.Yields

variable {m : Move} {ok ok' : Prop} {es fs : List Emission} {s s' : State}

theorem of_eq (h : m = ⟨es, .more s⟩) : m.Yields True es s :=
  ⟨fun _ => h, fun hok => absurd trivial hok⟩

theorem congr (h : m.Yields ok es s) (hok : ok ↔ ok') (hes : es = fs) : m.Yields ok' fs s := by
  subst hes
  exact ⟨fun h' => h.goes (hok.2 h'), fun h' => h.stops fun hn => h' (hok.1 hn)⟩

theorem after (h : m.Yields ok es s) : (Move.after fs m).Yields ok (fs ++ es) s := by
  refine ⟨fun hok => ?_, fun hok => ?_⟩
  · rw [h.goes hok, after_mk]
  · exact h.stops hok

/-- One move and then another goes on if both do. -/
theorem andThen {next : State → Move} (h : m.Yields ok es s) (h' : (next s).Yields ok' fs s') :
    (m.andThen next).Yields (ok ∧ ok') (es ++ fs) s' := by
  by_cases hok : ok
  · rw [h.goes hok, andThen_more]
    exact h'.after.congr (by simp [hok]) rfl
  · obtain ⟨d, hd⟩ := h.stops hok
    exact ⟨fun h => absurd h.1 hok, fun _ => ⟨d, refused_andThen hd next⟩⟩

end Move.Yields

namespace State

variable {bound : Option Nat} {place : Position}

/-- A step that goes on, and then what the rest does. -/
theorem yields_cons {s s' s'' : State} {l : Lexeme} {ls : List Lexeme} {ok : Prop}
    {es fs : List Emission} (h : s.step bound ⟨l, place⟩ = ⟨es, .more s'⟩)
    (h' : (s'.follow bound place ls).Yields ok fs s'') :
    (s.follow bound place (l :: ls)).Yields ok (es ++ fs) s'' := by
  rw [follow_cons, h]
  exact h'.after

theorem yields_step {s s' : State} {l : Lexeme} {es : List Emission}
    (h : s.step bound ⟨l, place⟩ = ⟨es, .more s'⟩) :
    (s.follow bound place [l]).Yields True es s' :=
  .of_eq ((follow_singleton s l).trans h)

theorem yields_append {s s' s'' : State} {ls ms : List Lexeme} {ok ok' : Prop}
    {es fs : List Emission} (h : (s.follow bound place ls).Yields ok es s')
    (h' : (s'.follow bound place ms).Yields ok' fs s'') :
    (s.follow bound place (ls ++ ms)).Yields (ok ∧ ok') (es ++ fs) s'' := by
  rw [follow_append]
  exact h.andThen h'

/-- The condition that the names in an expression are known. -/
def Knows (s : State) (ms : List Mention) : Prop := ∀ m ∈ ms, s.admits m = true

theorem knows_append {s : State} {ms ns : List Mention} :
    s.Knows (ms ++ ns) ↔ s.Knows ms ∧ s.Knows ns :=
  List.forall_mem_append

end State

/-! ## Expressions -/

theorem Kind.isAdditive_operator (o : Operator) : (Kind.operator o).isAdditive = o.isAdditive := by
  cases o <;> rfl

theorem Kind.isMultiplicative_operator (o : Operator) :
    (Kind.operator o).isMultiplicative = o.isMultiplicative := by
  cases o <;> rfl

namespace State

variable {bound : Option Nat} {place : Position} {p : Purpose}

theorem step_sign (s : State) (afterSign : Bool) {o : Operator} (h : o.isAdditive = true) :
    (s.enter (.operand p afterSign)).step bound ⟨.ofOperator o, place⟩ =
      ⟨(if afterSign then [.code (bytes " ")] else []) ++ [.code o.spelling],
        .more (s.enter (.signed p))⟩ := by
  simp only [step, phase_enter, operand, Lexeme.ofOperator, Kind.isAdditive_operator, h]
  rfl

theorem step_additive (s : State) {o : Operator} (h : o.isAdditive = true) :
    (s.enter (.operator p)).step bound ⟨.ofOperator o, place⟩ =
      ⟨[.code o.spelling], .more (s.enter (.operand p true))⟩ := by
  simp only [step, phase_enter, operator, Lexeme.ofOperator, Kind.isAdditive_operator, h]
  rfl

theorem step_multiplicative (s : State) {o : Operator} (h : o.isMultiplicative = true) :
    (s.enter (.operator p)).step bound ⟨.ofOperator o, place⟩ =
      ⟨[.code o.spelling], .more (s.enter (.operand p false))⟩ := by
  simp only [step, phase_enter, operator, Lexeme.ofOperator, Kind.isAdditive_operator,
    Kind.isMultiplicative_operator, h, Operator.isAdditive_of_isMultiplicative h]
  rfl

theorem step_comparison (s : State) (b : Block) (compared : Bool) {o : Operator}
    (h : o.isRelational = true) :
    (s.enter (.operator (.condition b compared))).step bound ⟨.ofOperator o, place⟩ =
      ⟨[.code o.spelling], .more (s.enter (.operand (.condition b true) false))⟩ := by
  obtain ⟨hadditive, hmultiplicative⟩ := Operator.roles_of_isRelational h
  simp only [step, phase_enter, operator, expressionEnd, Lexeme.ofOperator,
    Kind.isAdditive_operator, Kind.isMultiplicative_operator,
    Kind.isComparison_operator, h, hadditive, hmultiplicative]
  rfl

theorem yields_primary (s : State) (x : Primary) :
    (s.primary p ⟨x.lexeme, place⟩).Yields (s.Knows x.mentions) [.code x.lexeme.text]
      (s.enter (.operator p)) := by
  cases x with
  | number n => exact (Move.Yields.of_eq rfl).congr (by simp [Knows, Primary.mentions]) rfl
  | reference x =>
    have hknows : s.Knows (Primary.reference x).mentions ↔ x.text ∈ s.assigned := by
      simp [Knows, Primary.mentions, admits]
    refine ⟨fun h => if_pos (hknows.1 h), fun h => ⟨⟨place, .unassignedVariable x.text⟩, ?_⟩⟩
    exact congrArg Move.progress (if_neg fun h' => h (hknows.2 h'))

theorem operand_primary (s : State) (afterSign : Bool) (x : Primary) :
    s.operand p afterSign ⟨x.lexeme, place⟩ = s.primary p ⟨x.lexeme, place⟩ := by
  cases x <;> rfl

theorem yields_operand (s : State) (afterSign : Bool) (u : Operand) :
    ((s.enter (.operand p afterSign)).follow bound place u.lexemes).Yields (s.Knows u.mentions)
      (u.emissions afterSign) (s.enter (.operator p)) := by
  obtain ⟨sign, x⟩ := u
  cases sign with
  | none =>
    show ((s.enter (.operand p afterSign)).follow bound place [x.lexeme]).Yields _ _ _
    rw [follow_singleton]
    show ((s.enter _).operand p afterSign ⟨x.lexeme, place⟩).Yields _ _ _
    rw [operand_primary]
    exact yields_primary _ x
  | some o =>
    show ((s.enter (.operand p afterSign)).follow bound place [.ofOperator o.1, x.lexeme]).Yields
      _ _ _
    have hsigned : ((s.enter (.signed p)).follow bound place [x.lexeme]).Yields
        (s.Knows x.mentions) [.code x.lexeme.text] (s.enter (.operator p)) := by
      rw [follow_singleton]
      exact yields_primary _ x
    refine (yields_cons (step_sign s afterSign o.2) hsigned).congr Iff.rfl ?_
    simp [Operand.emissions]

/-- An expression goes on if its variables are known. -/
theorem yields_expression (s : State) (afterSign : Bool) (e : Expression) :
    ((s.enter (.operand p afterSign)).follow bound place e.lexemes).Yields (s.Knows e.mentions)
      (e.emissions afterSign) (s.enter (.operator p)) := by
  induction e using Expression.induction generalizing afterSign with
  | operand u => simpa using yields_operand s afterSign u
  | multiply u o e ih =>
    rw [Expression.lexemes_multiply]
    refine (yields_append (yields_operand s afterSign u)
      (yields_cons (step_multiplicative s o.2) (ih false))).congr ?_ ?_
    · simp [knows_append]
    · simp
  | add u o e ih =>
    rw [Expression.lexemes_add]
    refine (yields_append (yields_operand s afterSign u)
      (yields_cons (step_additive s o.2) (ih true))).congr ?_ ?_
    · simp [knows_append]
    · simp

/-- Comparisons go on if the variables in them are known. -/
theorem yields_comparisons (s : State) (b : Block) (compared : Bool)
    (rest : List ({ o : Operator // o.isRelational = true } × Expression)) :
    ((s.enter (.operator (.condition b compared))).follow bound place
        (rest.flatMap fun link => .ofOperator link.1.1 :: link.2.lexemes)).Yields
      (s.Knows (rest.flatMap fun link => link.2.mentions))
      (rest.flatMap fun link => .code link.1.1.spelling :: link.2.emissions false)
      (s.enter (.operator (.condition b (compared || !rest.isEmpty)))) := by
  induction rest generalizing compared with
  | nil => exact (Move.Yields.of_eq (by simp)).congr (by simp [Knows]) rfl
  | cons link rest ih =>
    rw [List.flatMap_cons, List.isEmpty_cons, Bool.not_false, Bool.or_true]
    -- one comparison is enough, whatever follows it
    have hrest := ih true
    rw [Bool.true_or] at hrest
    refine (yields_append (yields_cons (step_comparison s b compared link.1.2)
      (yields_expression s false link.2)) hrest).congr ?_ ?_
    · simp [knows_append]
    · simp

/-- The first token of a condition comes with the code in front of it. -/
theorem follow_condition (s : State) (b : Block) {ls : List Lexeme} (h : ls ≠ []) :
    (s.enter (.condition b)).follow bound place ls =
      .after [.code b.lead]
        ((s.enter (.operand (.condition b false) false)).follow bound place ls) := by
  cases ls with
  | nil => exact absurd rfl h
  | cons l ls => exact Move.after_andThen ..

theorem yields_opening {s s' : State} (b : Block) {ls : List Lexeme} (hls : ls ≠ []) {ok : Prop}
    {es : List Emission}
    (h : ((s.enter (.operand (.condition b false) false)).follow bound place ls).Yields ok es s') :
    ((s.enter (.condition b)).follow bound place ls).Yields ok ([.code b.lead] ++ es) s' := by
  rw [follow_condition s b hls]
  exact h.after

end State

/-- An expression does not start with a string. -/
theorem Expression.exists_head (e : Expression) :
    ∃ l ls, e.lexemes = l :: ls ∧ l.kind ≠ .string := by
  have hoperand : ∀ u : Operand, ∃ l ls, u.lexemes = l :: ls ∧ l.kind ≠ .string := by
    rintro ⟨sign, x⟩
    cases sign with
    | none => exact ⟨x.lexeme, [], rfl, by cases x <;> simp [Primary.lexeme, Lexeme.ofNumeral,
        Lexeme.ofIdentifier]⟩
    | some o => exact ⟨_, _, rfl, by simp [Lexeme.ofOperator]⟩
  obtain ⟨l, ls, hls, hl⟩ := hoperand e.first.first
  exact ⟨l, _, by rw [lexemes, Chain.flatten, Term.lexemes, Chain.flatten, hls]; rfl, hl⟩

theorem Expression.lexemes_ne_nil (e : Expression) : e.lexemes ≠ [] := by
  obtain ⟨l, ls, hls, -⟩ := e.exists_head
  simp [hls]

/-- A condition, expression by expression. -/
theorem Condition.lexemes_eq (c : Condition) :
    c.lexemes = c.chain.first.lexemes ++
      c.chain.rest.flatMap fun link => .ofOperator link.1.1 :: link.2.lexemes := rfl

namespace State

variable {bound : Option Nat} {place : Position}

/-- A condition goes on if its variables are known. -/
theorem yields_condition (s : State) (b : Block) (c : Condition) :
    ((s.enter (.condition b)).follow bound place c.lexemes).Yields (s.Knows c.mentions)
      (.code b.lead :: c.emissions) (s.enter (.operator (.condition b true))) := by
  have hne := List.append_ne_nil_of_left_ne_nil c.chain.first.lexemes_ne_nil
    (c.chain.rest.flatMap fun link => .ofOperator link.1.1 :: link.2.lexemes)
  have hcompared : (false || !c.chain.rest.isEmpty) = true := by
    simpa using c.compares
  have hrest := @yields_comparisons bound place s b false c.chain.rest
  rw [hcompared] at hrest
  rw [c.lexemes_eq]
  refine (yields_opening b hne
    (yields_append (yields_expression s false c.chain.first) hrest)).congr ?_ ?_
  · simp [Condition.mentions, Chain.flatten, knows_append]
  · simp [Condition.emissions, Chain.flatten]

end State

/-! ## Statements -/

/-- What follows the word that a statement starts with. -/
def Keyword.phase? : Keyword → Option Phase
  | PRINT => some (.print false)
  | PRINTLN => some (.print true)
  | IF => some (.condition .conditional)
  | WHILE => some (.condition .loop)
  | LABEL => some (.name .label)
  | GOTO => some (.name .jump)
  | LET => some (.name .assignment)
  | INPUT => some (.name .input)
  | THEN | ENDIF | REPEAT | ENDWHILE => none

namespace State

variable {bound : Option Nat} {place : Position}

/-- A statement may start wherever one may stand, inside a block or outside. -/
theorem step_word {s : State} (hs : s.phase = .statement) {k : Keyword} {phase : Phase}
    (hk : k.phase? = some phase) :
    s.step bound ⟨.ofKeyword k, place⟩ = ⟨[], .more (s.enter phase)⟩ := by
  have hstatement : s.statement ⟨.ofKeyword k, place⟩ = ⟨[], .more (s.enter phase)⟩ := by
    cases k <;> cases hk <;> rfl
  -- a word that starts a statement closes no block, so an open block does not matter
  have hclosing : ∀ b : Block, k ≠ b.closing := by
    rintro b rfl
    cases b <;> cases hk
  have hitem : s.item ⟨.ofKeyword k, place⟩ = s.statement ⟨.ofKeyword k, place⟩ := by
    cases hblocks : s.blocks with
    | nil => simp [item, hblocks, Lexeme.ofKeyword]
    | cons b outer => simp [item, hblocks, Lexeme.ofKeyword, hclosing b]
  rw [step, hs]
  show s.itemLine _ = _
  rw [itemLine, if_neg (by simp), hitem, hstatement]

/-- So may a block. -/
theorem step_firstWord {s : State} (hs : s.phase = .statement) (b : Block) :
    s.step bound ⟨.ofKeyword b.firstWord, place⟩ = ⟨[], .more (s.enter (.condition b))⟩ := by
  have hword : b.firstWord.phase? = some (.condition b) := by
    cases b <;> rfl
  exact step_word hs hword

theorem step_newline {s : State} (hs : s.phase = .statement) :
    s.step bound ⟨.newline, place⟩ = ⟨[], .more s⟩ := by
  have h : s.step bound ⟨.newline, place⟩ = ⟨[], .more (s.enter .statement)⟩ := by
    rw [step, hs]
    rfl
  rw [h, enter_of_phase hs]

/-- Empty lines change nothing where a statement may start. -/
theorem follow_blank {s : State} (hs : s.phase = .statement) (n : Nat) :
    s.follow bound place (List.replicate n .newline) = ⟨[], .more s⟩ := by
  induction n with
  | zero => rfl
  | succ n ih => rw [List.replicate_succ, follow_cons, step_newline hs, Move.andThen_more, ih]; rfl

/-- The first token of a printed expression comes with the code in front of it. -/
theorem follow_print (s : State) (newline : Bool) (e : Expression) :
    (s.enter (.print newline)).follow bound place e.lexemes =
      .after [.code (bytes "printf(\"%.2f" ++ Simple.ending newline ++ bytes "\", (float)(")]
        ((s.enter (.operand .print false)).follow bound place e.lexemes) := by
  obtain ⟨l, ls, hls, hl⟩ := e.exists_head
  rw [hls, follow_cons, follow_cons, ← Move.after_andThen]
  refine congrArg (Move.andThen · _) ?_
  exact if_neg hl

end State

/-- Expressions only use names. -/
theorem Expression.use_of_mem_mentions {e : Expression} : ∀ m ∈ e.mentions, ∃ x, m = .use x := by
  have hoperand : ∀ u : Operand, ∀ m ∈ u.mentions, ∃ x, m = .use x := by
    rintro ⟨sign, x⟩ m hm
    cases x with
    | number n => cases hm
    | reference x => exact ⟨x.text, List.mem_singleton.1 hm⟩
  intro m hm
  induction e using Expression.induction with
  | operand u => exact hoperand u m (by simpa using hm)
  | multiply u o e ih =>
    rw [mentions_multiply] at hm
    exact (List.mem_append.1 hm).elim (hoperand u m) ih
  | add u o e ih =>
    rw [mentions_add] at hm
    exact (List.mem_append.1 hm).elim (hoperand u m) ih

theorem Condition.use_of_mem_mentions {c : Condition} : ∀ m ∈ c.mentions, ∃ x, m = .use x := by
  intro m hm
  rcases List.mem_append.1 hm with hm | hm
  · exact Expression.use_of_mem_mentions m hm
  · obtain ⟨link, -, hm⟩ := List.mem_flatMap.1 hm
    exact Expression.use_of_mem_mentions m hm

namespace State

variable {bound : Option Nat} {place : Position}

theorem yields_printText {s : State} (hs : s.phase = .statement) (newline : Bool)
    (text : Literal) :
    (s.follow bound place ((Simple.printText newline text).lexemes ++ [.newline])).Yields True
      ((Simple.printText newline text).emissions s.assigned) s := by
  have hend : (s.enter .lineEnd).step bound ⟨.newline, place⟩ = ⟨[], .more s⟩ := by
    rw [← enter_of_phase hs]
    rfl
  have htext : (s.enter (.print newline)).step bound ⟨.ofLiteral text, place⟩ =
      ⟨(Simple.printText newline text).emissions s.assigned, .more (s.enter .lineEnd)⟩ := rfl
  have hword : (Simple.printWord newline).phase? = some (.print newline) := by
    cases newline <;> rfl
  exact yields_cons (step_word hs hword) (yields_cons htext (yields_step hend))

/-- A printed expression comes with the code in front of it. -/
theorem yields_printed (s : State) (newline : Bool) (value : Expression) :
    ((s.enter (.print newline)).follow bound place value.lexemes).Yields (s.Knows value.mentions)
      ([.code (bytes "printf(\"%.2f" ++ Simple.ending newline ++ bytes "\", (float)(")] ++
        value.emissions false)
      (s.enter (.operator .print)) := by
  rw [follow_print]
  exact (yields_expression s false value).after

theorem yields_printValue {s : State} (hs : s.phase = .statement) (newline : Bool)
    (value : Expression) :
    (s.follow bound place ((Simple.printValue newline value).lexemes ++ [.newline])).Yields
      (s.Knows value.mentions) ((Simple.printValue newline value).emissions s.assigned) s := by
  have hend : (s.enter (.operator .print)).step bound ⟨.newline, place⟩ =
      ⟨[.line (bytes "));")], .more s⟩ := by
    rw [← enter_of_phase hs]
    rfl
  have hword : (Simple.printWord newline).phase? = some (.print newline) := by
    cases newline <;> rfl
  refine (yields_cons (step_word hs hword)
    (yields_append (yields_printed s newline value) (yields_step hend))).congr ?_ ?_
  · exact iff_of_eq (and_true _)
  · simp [Simple.emissions]

/-- A statement of a word and a name, up to the name. -/
theorem yields_name {s : State} (hs : s.phase = .statement) {k : Keyword} {use : Naming}
    (hk : k.phase? = some (.name use)) (x : Identifier) :
    (s.follow bound place [.ofKeyword k, .ofIdentifier x]).Yields
      (use = .label → x.text ∉ s.labels) [] (s.enter (.named use x.text place)) := by
  have hname : ((s.enter (.name use)).follow bound place [.ofIdentifier x]).Yields
      (use = .label → x.text ∉ s.labels) [] (s.enter (.named use x.text place)) := by
    rw [follow_singleton]
    refine ⟨fun h => ?_, fun h => ⟨⟨place, .duplicateLabel x.text⟩, ?_⟩⟩
    · exact if_neg fun h' => h h'.1 h'.2
    · exact congrArg Move.progress (if_pos ⟨(Classical.not_imp.1 h).1,
        Classical.not_not.1 (Classical.not_imp.1 h).2⟩)
  exact yields_cons (step_word hs hk) hname

/-- A variable is declared at its first assignment. -/
theorem declaration_enter (s : State) (phase : Phase) (x : Bytes) :
    (s.enter phase).declaration x = Simple.declaration s.assigned x := by
  by_cases hx : x ∈ s.assigned <;> simp [declaration, Simple.declaration, enter, hx]

/-- The sign of an assignment declares the variable, which is known from here on, in its own value
too. -/
theorem step_assign (s : State) (x : Identifier) :
    (s.enter (.named .assignment x.text place)).step bound ⟨.ofOperator .assign, place⟩ =
      ⟨Simple.declaration s.assigned x.text ++ [.code (x.text ++ bytes " = ")],
        .more ((s.assign x.text).enter (.operand .assignment false))⟩ := by
  show Move.after ((s.enter _).declaration x.text ++ _)
    (Move.proceed (((s.enter _).assign x.text).enter _)) = _
  rw [declaration_enter, assign_enter]
  exact congrArg (Move.mk · _) (List.append_nil _)

theorem yields_assignment {s : State} (hs : s.phase = .statement) (x : Identifier)
    (value : Expression) :
    (s.follow bound place ((Simple.assignment x value).lexemes ++ [.newline])).Yields
      ((s.assign x.text).Knows value.mentions)
      ((Simple.assignment x value).emissions s.assigned) (s.assign x.text) := by
  have hend : ((s.assign x.text).enter (.operator .assignment)).step bound ⟨.newline, place⟩ =
      ⟨[.line (bytes ";")], .more (s.assign x.text)⟩ := by
    rw [← enter_of_phase ((phase_assign s x.text).trans hs)]
    rfl
  refine (yields_append (yields_name hs (k := .LET) rfl x) (yields_cons (step_assign s x)
    (yields_append (yields_expression (s.assign x.text) false value)
      (yields_step hend)))).congr ?_ ?_
  · simp
  · simp [Simple.emissions]

/-- A statement that stands alone goes on if the names in it may be mentioned. -/
theorem yields_simple {s : State} (hs : s.phase = .statement) (first : Simple) :
    (s.follow bound place (first.lexemes ++ [.newline])).Yields
      (s.admitsAll place first.mentions = true) (first.emissions s.assigned)
      (s.mentionAll place first.mentions) := by
  cases first with
  | printText newline text =>
    exact (yields_printText hs newline text).congr (by simp [Simple.mentions, admitsAll]) rfl
  | printValue newline value =>
    rw [Simple.mentions, mentionAll_of_uses Expression.use_of_mem_mentions,
      admitsAll_of_uses Expression.use_of_mem_mentions]
    exact yields_printValue hs newline value
  | label x =>
    have hend : (s.enter (.named .label x.text place)).step bound ⟨.newline, place⟩ =
        ⟨(Simple.label x).emissions s.assigned, .more (s.mention place (.label x.text))⟩ := by
      rw [← enter_of_phase hs]
      rfl
    refine (yields_append (yields_name hs (k := .LABEL) rfl x)
      (yields_step hend)).congr ?_ rfl
    simp [Simple.mentions, admitsAll, admits]
  | jump x =>
    have hend : (s.enter (.named .jump x.text place)).step bound ⟨.newline, place⟩ =
        ⟨(Simple.jump x).emissions s.assigned, .more (s.mention place (.jump x.text))⟩ := by
      rw [← enter_of_phase hs]
      rfl
    refine (yields_append (yields_name hs (k := .GOTO) rfl x)
      (yields_step hend)).congr ?_ rfl
    simp [Simple.mentions, admitsAll, admits]
  | assignment x value =>
    have hmentions : s.mentionAll place (Simple.assignment x value).mentions = s.assign x.text :=
      mentionAll_of_uses Expression.use_of_mem_mentions
    rw [hmentions]
    refine (yields_assignment hs x value).congr ?_ rfl
    rw [Simple.mentions, admitsAll, admits, Bool.true_and]
    exact (admitsAll_of_uses Expression.use_of_mem_mentions).symm
  | input x =>
    have hend : (s.enter (.named .input x.text place)).step bound ⟨.newline, place⟩ =
        ⟨(Simple.input x).emissions s.assigned, .more (s.assign x.text)⟩ := by
      show Move.after ((s.enter _).declaration x.text ++ _)
        (Move.proceed (((s.enter _).assign x.text).enter .statement)) = _
      rw [declaration_enter, assign_enter, enter_enter,
        enter_of_phase ((phase_assign s x.text).trans hs)]
      exact congrArg (Move.mk · _) (List.append_nil _)
    refine (yields_append (yields_name hs (k := .INPUT) rfl x)
      (yields_step hend)).congr ?_ rfl
    simp [Simple.mentions, admitsAll, admits]

end State

/-! ## Blocks -/

/-- Whether the blocks of statements, inside `n` open ones, may all be opened. -/
def Statements.fits (bound : Option Nat) : Nat → Statements → Bool
  | _, nil => true
  | n, simple _ _ rest => rest.fits bound n
  | n, block _ _ _ body _ rest =>
    Depth.allows bound (n + 1) && body.fits bound (n + 1) && rest.fits bound n

theorem Statements.fits_iff {bound : Option Nat} {n : Nat} {st : Statements} :
    st.fits bound n = true ↔ st.depth = 0 ∨ Depth.allows bound (n + st.depth) = true := by
  cases bound with
  | none =>
    have hfits : ∀ n, st.fits none n = true := by
      induction st with
      | nil => exact fun _ => rfl
      | simple first blank rest ih => exact ih
      | block b c blank body blankBehind rest ihbody ihrest =>
        intro n
        simp [fits, Depth.allows, ihbody, ihrest]
    simp [hfits, Depth.allows]
  | some m =>
    induction st generalizing n with
    | nil => simp [fits, depth]
    | simple first blank rest ih => exact ih
    | block b c blank body blankBehind rest ihbody ihrest =>
      rw [fits, Bool.and_eq_true_iff, Bool.and_eq_true_iff, ihbody, ihrest, depth]
      simp only [Depth.allows_some]
      omega

/-- Statements start with a reserved word, if there are any. -/
theorem Statements.nil_or_word (st : Statements) :
    st = .nil ∨ ∃ k ls, st.lexemes = .ofKeyword k :: ls := by
  cases st with
  | nil => exact Or.inl rfl
  | simple first blank rest => cases first <;> exact Or.inr ⟨_, _, rfl⟩
  | block b c blank body blankBehind rest => exact Or.inr ⟨_, _, rfl⟩

namespace State

variable {bound : Option Nat} {place : Position}

/-- The line end behind the word that opens a block, and empty lines. -/
theorem follow_blockLine (s : State) (b : Block) (blank : Nat) :
    (s.enter (.blockLine b)).follow bound place (Lexeme.lineEnd blank) =
      ⟨[], .more (s.enter (.blockBody b))⟩ := by
  have hblank : ∀ n, (s.enter (.blockBody b)).follow bound place (List.replicate n .newline) =
      ⟨[], .more (s.enter (.blockBody b))⟩ := by
    intro n
    induction n with
    | zero => rfl
    | succ n ih =>
      rw [List.replicate_succ, follow_cons]
      show (Move.proceed (s.enter (.blockBody b))).andThen _ = _
      rw [Move.proceed, Move.andThen_more, ih]
      rfl
  rw [Lexeme.lineEnd, List.replicate_succ, follow_cons]
  show (Move.proceed (s.enter (.blockBody b))).andThen _ = _
  rw [Move.proceed, Move.andThen_more, hblank]
  rfl

/-- The first token inside a block opens it, if one more block may be open. -/
theorem follow_blockBody (s : State) (b : Block) {l : Lexeme} {ls : List Lexeme}
    (hl : l.kind ≠ .newline) (h : Depth.allows bound (s.blocks.length + 1) = true) :
    (s.enter (.blockBody b)).follow bound place (l :: ls) =
      .after [.line (bytes ") \x7b")] ((s.openBlock b).follow bound place (l :: ls)) := by
  have hfirst : (s.enter (.blockBody b)).step bound ⟨l, place⟩ =
      .after [.line (bytes ") \x7b")] ((s.openBlock b).step bound ⟨l, place⟩) := by
    show (s.enter _).blockBody bound b _ = .after _ ((s.openBlock b).itemLine _)
    rw [blockBody_of_allows (by exact hl) (by exact h), itemLine, if_neg hl]
    rfl
  rw [follow_cons, hfirst, Move.after_andThen, follow_cons]

theorem refused_blockBody (s : State) (b : Block) {l : Lexeme} {ls : List Lexeme}
    (hl : l.kind ≠ .newline) (h : Depth.allows bound (s.blocks.length + 1) = false) :
    ∃ d, ((s.enter (.blockBody b)).follow bound place (l :: ls)).progress = .refused d := by
  obtain ⟨n, -, hm⟩ :=
    blockBody_of_not_allows (s := s.enter (.blockBody b)) (t := ⟨l, place⟩) b hl h
  refine ⟨⟨place, .nestedTooDeep n⟩, ?_⟩
  have hfirst : (s.enter (.blockBody b)).step bound ⟨l, place⟩ = _ := hm
  rw [follow_cons, hfirst]
  rfl

/-- The word that closes a block leaves what is known inside it. -/
theorem step_closing (s : State) (b : Block) (ms : List Mention) :
    ((s.openBlock b).mentionAll place ms).step bound ⟨.ofKeyword b.lastWord, place⟩ =
      ⟨[], .more ((s.mentionAll place ms).enter .blockEnd)⟩ := by
  have hclosed : ({ s.mentionAll place ms with phase := .blockEnd, blocks := s.blocks } : State) =
      (s.mentionAll place ms).enter .blockEnd := by
    rw [enter, ← @blocks_mentionAll place s ms]
  rw [openBlock, mentionAll_with, ← hclosed]
  cases b <;> rfl

/-- What starts with a word goes on inside a block as it does behind the first token of it, if one
more block may be open. -/
theorem yields_opened (s : State) (b : Block) {k : Keyword} {ls : List Lexeme} {ok : Prop}
    {es : List Emission} {s' : State}
    (h : ((s.openBlock b).follow bound place (.ofKeyword k :: ls)).Yields ok es s') :
    ((s.enter (.blockBody b)).follow bound place (.ofKeyword k :: ls)).Yields
      (ok ∧ Depth.allows bound (s.blocks.length + 1) = true)
      (.line (bytes ") \x7b") :: es) s' := by
  have hl : (Lexeme.ofKeyword k).kind ≠ .newline := by simp
  cases hallows : Depth.allows bound (s.blocks.length + 1) with
  | true =>
    rw [follow_blockBody s b hl hallows]
    exact h.after.congr (by simp) rfl
  | false =>
    refine ⟨fun h => ?_, fun _ => refused_blockBody s b hl hallows⟩
    cases h.2

/-- The body of a block and the word that closes it. -/
theorem yields_blockBody (s : State) (b : Block) (body : Statements)
    (hbody : ((s.openBlock b).follow bound place body.lexemes).Yields
      ((s.openBlock b).admitsAll place body.mentions = true ∧
        body.fits bound (s.blocks.length + 1) = true)
      (body.emissions s.assigned) ((s.openBlock b).mentionAll place body.mentions)) :
    ((s.enter (.blockBody b)).follow bound place
        (body.lexemes ++ [.ofKeyword b.lastWord])).Yields
      (s.admitsAll place body.mentions = true ∧ Depth.allows bound (s.blocks.length + 1) = true ∧
        body.fits bound (s.blocks.length + 1) = true)
      (.line (bytes ") \x7b") :: body.emissions s.assigned)
      ((s.mentionAll place body.mentions).enter .blockEnd) := by
  have hadmits : (s.openBlock b).admitsAll place body.mentions = s.admitsAll place body.mentions :=
    admitsAll_with ..
  rw [hadmits] at hbody
  have hinside := yields_append hbody (yields_step (step_closing s b body.mentions))
  -- the bound is looked at when the first word inside the block is read
  obtain ⟨k, ls, hls⟩ : ∃ k ls, body.lexemes ++ [.ofKeyword b.lastWord] = .ofKeyword k :: ls := by
    rcases body.nil_or_word with rfl | ⟨k, ls, hls⟩
    · exact ⟨_, _, rfl⟩
    · exact ⟨k, _, congrArg (· ++ _) hls⟩
  rw [hls] at hinside ⊢
  exact (yields_opened s b hinside).congr (by grind) (by simp)

/-- The line that opens a block, and empty lines. -/
theorem yields_heading {s : State} (hs : s.phase = .statement) (b : Block) (c : Condition)
    (blank : Nat) :
    (s.follow bound place (.ofKeyword b.firstWord :: (c.lexemes ++
        (.ofKeyword b.thenWord :: Lexeme.lineEnd blank)))).Yields
      (s.Knows c.mentions) (.code b.lead :: c.emissions) (s.enter (.blockBody b)) := by
  have hopening : (s.enter (.operator (.condition b true))).step bound
      ⟨.ofKeyword b.thenWord, place⟩ = ⟨[], .more (s.enter (.blockLine b))⟩ := by
    cases b <;> rfl
  refine (yields_cons (step_firstWord hs b) (yields_append (yields_condition s b c)
    (yields_cons hopening (.of_eq (follow_blockLine s b blank))))).congr ?_ ?_
  · exact iff_of_eq (and_true _)
  · simp

/-- The line end behind the word that closes a block, and empty lines. -/
theorem follow_blockEnd {s : State} (hs : s.phase = .statement) (blank : Nat) :
    (s.enter .blockEnd).follow bound place (Lexeme.lineEnd blank) =
      ⟨[.line (bytes "\x7d")], .more s⟩ := by
  have hend : (s.enter .blockEnd).step bound ⟨.newline, place⟩ =
      ⟨[.line (bytes "\x7d")], .more s⟩ := by
    rw [← enter_of_phase hs]
    rfl
  rw [Lexeme.lineEnd, List.replicate_succ, follow_cons, hend, Move.andThen_more,
    follow_blank hs]
  rfl

/-- Statements go on if the names in them may be mentioned and their blocks may be opened. -/
theorem yields_statements {s : State} (hs : s.phase = .statement) (st : Statements) :
    (s.follow bound place st.lexemes).Yields
      (s.admitsAll place st.mentions = true ∧ st.fits bound s.blocks.length = true)
      (st.emissions s.assigned) (s.mentionAll place st.mentions) := by
  induction st generalizing s with
  | nil => exact (Move.Yields.of_eq rfl).congr (by simp [Statements.mentions, admitsAll,
      Statements.fits]) rfl
  | simple first blank rest ih =>
    have hknown : (s.mentionAll place first.mentions).phase = .statement := by
      rw [phase_mentionAll, hs]
    have hlexemes : (Statements.simple first blank rest).lexemes =
        (first.lexemes ++ [.newline]) ++ (List.replicate blank .newline ++ rest.lexemes) := by
      simp [Statements.lexemes, Lexeme.lineEnd, List.replicate_succ]
    have hrest := yields_append (.of_eq (@follow_blank bound place _ hknown blank)) (ih hknown)
    rw [hlexemes, Statements.mentions, mentionAll_append, admitsAll_append]
    refine (yields_append (yields_simple hs first) hrest).congr ?_ ?_
    · simp [Statements.fits, blocks_mentionAll, and_assoc]
    · simp [Statements.emissions, assigned_mentionAll]
  | block b c blank body blankBehind rest ihbody ihrest =>
    have hknown : (s.mentionAll place body.mentions).phase = .statement := by
      rw [phase_mentionAll, hs]
    have hlexemes : (Statements.block b c blank body blankBehind rest).lexemes =
        (.ofKeyword b.firstWord :: (c.lexemes ++
            (.ofKeyword b.thenWord :: Lexeme.lineEnd blank))) ++
          ((body.lexemes ++ [.ofKeyword b.lastWord]) ++
            (Lexeme.lineEnd blankBehind ++ rest.lexemes)) := by
      simp [Statements.lexemes]
    -- nothing becomes known in the condition; what becomes known in the body stays known
    have hcondition := @mentionAll_of_uses place s c.mentions Condition.use_of_mem_mentions
    rw [hlexemes, Statements.mentions, mentionAll_append, mentionAll_append, admitsAll_append,
      admitsAll_append, mentionAll_append, hcondition]
    refine (yields_append (yields_heading hs b c blank)
      (yields_append (yields_blockBody s b body (ihbody rfl))
        (yields_append (.of_eq (follow_blockEnd hknown blankBehind)) (ihrest hknown)))).congr ?_ ?_
    · rw [Bool.and_eq_true_iff, Bool.and_eq_true_iff, admitsAll_of_uses
        Condition.use_of_mem_mentions, Statements.fits, blocks_mentionAll, Bool.and_eq_true_iff,
        Bool.and_eq_true_iff]
      simp only [Knows, true_and, and_assoc]
      grind
    · simp [Statements.emissions, assigned_mentionAll]

/-! ## Programs -/

/-- The first token comes with the lines in front, and starts the first statement or is an empty
line. -/
theorem follow_opening {l : Lexeme} (ls : List Lexeme) (hl : l.kind ≠ .eof) :
    start.follow bound place (l :: ls) =
      .after preamble ((start.enter .statement).follow bound place (l :: ls)) := by
  have hstatement : ∀ t, (start.enter .statement).statement t = start.statement t := by
    intro t
    unfold statement
    split <;> rfl
  have hfirst : start.step bound ⟨l, place⟩ =
      .after preamble ((start.enter .statement).step bound ⟨l, place⟩) := by
    refine congrArg (Move.after preamble) ?_
    show start.itemLine _ = (start.enter .statement).itemLine _
    unfold itemLine
    split
    next => rfl
    next =>
      show (if l.kind = .eof then _ else _) = if l.kind = .eof then _ else _
      rw [if_neg hl, if_neg hl, hstatement]
  rw [follow_cons, hfirst, Move.after_andThen, follow_cons]

theorem step_eof_of_statement {s : State} (hs : s.phase = .statement) (hblocks : s.blocks = []) :
    s.step bound ⟨.eof, place⟩ = ⟨epilogue, .finished s⟩ := by
  rw [step, hs]
  show s.item _ = _
  rw [item, hblocks]
  rfl

/-- The first token of a program starts the first statement or is an empty line, unless there is
neither. -/
theorem follow_lexemes {p : Program} (hp : p ≠ ⟨0, .nil⟩) :
    start.follow bound place p.lexemes =
      .after preamble ((start.enter .statement).follow bound place p.lexemes) := by
  obtain ⟨blank, body⟩ := p
  cases blank with
  | succ n => exact follow_opening _ (by simp [Lexeme.newline])
  | zero =>
    rcases body.nil_or_word with rfl | ⟨k, ls, hls⟩
    · exact absurd rfl hp
    · have hlexemes : Program.lexemes ⟨0, body⟩ = .ofKeyword k :: (ls ++ [.eof]) := by
        simp [Program.lexemes, hls]
      rw [hlexemes]
      exact follow_opening _ (by simp)

/-- A program up to the end of the input. -/
theorem yields_program (p : Program) :
    ((start.enter .statement).follow bound place
        (List.replicate p.blank .newline ++ p.body.lexemes)).Yields
      (start.admitsAll place p.body.mentions = true ∧ p.body.fits bound 0 = true)
      (p.body.emissions []) ((start.mentionAll place p.body.mentions).enter .statement) := by
  have hadmits : (start.enter .statement).admitsAll place p.body.mentions =
      start.admitsAll place p.body.mentions :=
    admitsAll_with start .statement start.blocks p.body.mentions
  rw [← hadmits, ← mentionAll_enter]
  have hblank := @follow_blank bound place (start.enter .statement) rfl p.blank
  exact (yields_append (.of_eq hblank) (yields_statements rfl p.body)).congr
    (iff_of_eq (true_and _)) rfl

/-- A program is finished, with its code emitted, if the names in it may be mentioned and its
blocks may be opened. -/
theorem finished_program (p : Program) (hadmits : start.admitsAll place p.body.mentions = true)
    (hfits : p.body.fits bound 0 = true) :
    ∃ phase, start.follow bound place p.lexemes =
      ⟨p.emissions, .finished ((start.mentionAll place p.body.mentions).enter phase)⟩ := by
  -- without any lexeme before it, the end of the input is the first token
  by_cases hp : p = ⟨0, .nil⟩
  · subst hp
    exact ⟨.opening, rfl⟩
  · have hblocks : ((start.mentionAll place p.body.mentions).enter .statement).blocks = [] :=
      blocks_mentionAll ..
    refine ⟨.statement, ?_⟩
    rw [follow_lexemes hp, Program.lexemes, follow_append,
      (yields_program p).goes ⟨hadmits, hfits⟩, Move.andThen_more, follow_singleton,
      step_eof_of_statement rfl hblocks]
    simp [Program.emissions, preamble, epilogue]

/-- Otherwise one of its tokens is refused. -/
theorem refused_program (p : Program)
    (h : ¬ (start.admitsAll place p.body.mentions = true ∧ p.body.fits bound 0 = true)) :
    ∃ d, (start.follow bound place p.lexemes).progress = .refused d := by
  have hp : p ≠ ⟨0, .nil⟩ := by
    rintro rfl
    exact h ⟨rfl, rfl⟩
  obtain ⟨d, hd⟩ := (yields_program p).stops h
  refine ⟨d, ?_⟩
  rw [follow_lexemes hp, Program.lexemes, follow_append]
  exact Move.refused_andThen hd _

/-- So a program that is finished was in order, and nothing is known but what it mentions. -/
theorem of_finished_program {p : Program} {s : State}
    (h : (start.follow bound place p.lexemes).progress = .finished s) :
    start.admitsAll place p.body.mentions = true ∧ p.body.fits bound 0 = true ∧
      ∃ phase, s = (start.mentionAll place p.body.mentions).enter phase := by
  by_cases hok : start.admitsAll place p.body.mentions = true ∧ p.body.fits bound 0 = true
  · obtain ⟨phase, hfinished⟩ := finished_program p hok.1 hok.2
    rw [hfinished] at h
    injection h with hs
    exact ⟨hok.1, hok.2, phase, hs.symm⟩
  · obtain ⟨d, hrefused⟩ := refused_program p hok
    rw [hrefused] at h
    cases h

end State

end Teeny
