import Teeny.Proofs.Generator.Steps
import Teeny.Proofs.Grammar.Tree

/-!
# What the generator finishes is derived from the grammar

Each phase of the generator stands for the lexemes that the grammar allows from there to the end of
the program (`Phase.Expects`). A step that goes on reads one lexeme of them (`expects_of_step`): if
the lexemes behind a token are what the new phase expects, then the token and those lexemes are
what the old phase expects. So a run that finishes has read what the first phase expects, which is
a program (`exists_program_of_finished`).
-/

namespace Teeny

/-! ## Lexemes with the form of their kind -/

namespace Lexeme

variable {l : Lexeme}

theorem eq_ofKeyword {k : Keyword} (h : l.isWellFormed = true) (hkind : l.kind = .keyword k) :
    l = ofKeyword k := by
  obtain ⟨kind, text⟩ := l
  subst hkind
  exact congrArg (Lexeme.mk _) (of_decide_eq_true h)

theorem eq_ofOperator {o : Operator} (h : l.isWellFormed = true) (hkind : l.kind = .operator o) :
    l = ofOperator o := by
  obtain ⟨kind, text⟩ := l
  subst hkind
  exact congrArg (Lexeme.mk _) (of_decide_eq_true h)

theorem exists_identifier (h : l.isWellFormed = true) (hkind : l.kind = .name) :
    ∃ x, l = ofIdentifier x := by
  obtain ⟨kind, text⟩ := l
  subst hkind
  exact ⟨⟨text, h⟩, rfl⟩

theorem exists_numeral (h : l.isWellFormed = true) (hkind : l.kind = .number) :
    ∃ n, l = ofNumeral n := by
  obtain ⟨kind, text⟩ := l
  subst hkind
  exact ⟨⟨text, h⟩, rfl⟩

theorem exists_literal (h : l.isWellFormed = true) (hkind : l.kind = .string) :
    ∃ text, l = ofLiteral text := by
  obtain ⟨kind, text⟩ := l
  subst hkind
  exact ⟨⟨text, h⟩, rfl⟩

/-- A lexeme of an additive kind is one of the operators in that class; likewise below. -/
theorem exists_additive (h : l.isWellFormed = true) (hkind : l.kind.isAdditive = true) :
    ∃ o : { o : Operator // o.isAdditive = true }, l = ofOperator o.1 := by
  rcases Bool.or_eq_true_iff.1 hkind with hkind | hkind
  · exact ⟨⟨.plus, rfl⟩, eq_ofOperator h (of_decide_eq_true hkind)⟩
  · exact ⟨⟨.minus, rfl⟩, eq_ofOperator h (of_decide_eq_true hkind)⟩

theorem exists_multiplicative (h : l.isWellFormed = true)
    (hkind : l.kind.isMultiplicative = true) :
    ∃ o : { o : Operator // o.isMultiplicative = true }, l = ofOperator o.1 := by
  rcases Bool.or_eq_true_iff.1 hkind with hkind | hkind
  · exact ⟨⟨.times, rfl⟩, eq_ofOperator h (of_decide_eq_true hkind)⟩
  · exact ⟨⟨.divide, rfl⟩, eq_ofOperator h (of_decide_eq_true hkind)⟩

theorem exists_comparison (h : l.isWellFormed = true) (hkind : l.kind.isComparison = true) :
    ∃ o : { o : Operator // o.isRelational = true }, l = ofOperator o.1 := by
  cases hl : l.kind with
  | operator o =>
    rw [hl, Kind.isComparison_operator] at hkind
    exact ⟨⟨o, hkind⟩, eq_ofOperator h hl⟩
  | _ =>
    rw [hl] at hkind
    cases hkind

end Lexeme

/-! ## What may follow -/

/-- What may follow behind statements: the word that closes the innermost of the open blocks, more
statements, and so on, or the end of the input if no block is open. -/
def Closing : List Block → List Lexeme → Prop
  | [], ls => ls = [.eof]
  | b :: outer, ls =>
    ∃ (blank : Nat) (st : Statements) (rest : List Lexeme),
      ls = .ofKeyword b.lastWord :: (Lexeme.lineEnd blank ++ (st.lexemes ++ rest)) ∧
        Closing outer rest

/-- What may follow behind a line end: empty lines, statements, and the ends of open blocks. -/
def Remainder (blocks : List Block) (ls : List Lexeme) : Prop :=
  ∃ (blank : Nat) (st : Statements) (rest : List Lexeme),
    ls = List.replicate blank .newline ++ (st.lexemes ++ rest) ∧ Closing blocks rest

/-- What may follow a statement: the end of its line, and then anything that may follow that. -/
def LineEnd (blocks : List Block) (ls : List Lexeme) : Prop :=
  ∃ rest, ls = .newline :: rest ∧ Remainder blocks rest

namespace Remainder

variable {blocks : List Block} {ls : List Lexeme}

theorem eof : Remainder [] [.eof] := ⟨0, .nil, [.eof], rfl, rfl⟩

theorem newline (h : Remainder blocks ls) : Remainder blocks (.newline :: ls) := by
  obtain ⟨blank, st, rest, rfl, hrest⟩ := h
  exact ⟨blank + 1, st, rest, rfl, hrest⟩

theorem simple (first : Simple) (h : LineEnd blocks ls) :
    Remainder blocks (first.lexemes ++ ls) := by
  obtain ⟨ls, rfl, blank, st, rest, rfl, hrest⟩ := h
  refine ⟨0, .simple first blank st, rest, ?_, hrest⟩
  simp [Statements.lexemes, Lexeme.lineEnd, List.replicate_succ]

theorem close (b : Block) (h : LineEnd blocks ls) :
    Remainder (b :: blocks) (.ofKeyword b.lastWord :: ls) := by
  obtain ⟨ls, rfl, blank, st, rest, rfl, hrest⟩ := h
  exact ⟨0, .nil, _, rfl, blank, st, rest, rfl, hrest⟩

theorem block (b : Block) (c : Condition) (h : Remainder (b :: blocks) ls) :
    Remainder blocks
      (.ofKeyword b.firstWord :: (c.lexemes ++ .ofKeyword b.thenWord :: .newline :: ls)) := by
  obtain ⟨blank, body, rest, rfl, blankBehind, st, rest, rfl, hrest⟩ := h
  refine ⟨0, .block b c blank body blankBehind st, rest, ?_, hrest⟩
  simp [Statements.lexemes, Lexeme.lineEnd, List.replicate_succ]

end Remainder

/-- What may follow an expression that is read for the given purpose. -/
def Purpose.Follows (blocks : List Block) : Purpose → List Lexeme → Prop
  | print, ls | assignment, ls => LineEnd blocks ls
  | condition b compared, ls =>
    ∃ (links : List ({ o : Operator // o.isRelational = true } × Expression))
        (rest : List Lexeme),
      ls = (links.flatMap fun link => .ofOperator link.1.1 :: link.2.lexemes) ++
          .ofKeyword b.thenWord :: .newline :: rest ∧
        (compared = false → links ≠ []) ∧ Remainder (b :: blocks) rest

/-- What may stand where an operand starts: an expression and what follows it. -/
def Purpose.Starts (blocks : List Block) (p : Purpose) (ls : List Lexeme) : Prop :=
  ∃ (e : Expression) (rest : List Lexeme), ls = e.lexemes ++ rest ∧ p.Follows blocks rest

/-- What may stand behind an operand: it makes an expression together with any operand. -/
def Purpose.Continues (blocks : List Block) (p : Purpose) (ls : List Lexeme) : Prop :=
  ∀ u : Operand, p.Starts blocks (u.lexemes ++ ls)

/-- What may follow the name in a statement. -/
def Naming.Follows (blocks : List Block) : Naming → List Lexeme → Prop
  | label, ls | jump, ls | input, ls => LineEnd blocks ls
  | assignment, ls =>
    ∃ rest, ls = .ofOperator .assign :: rest ∧ Purpose.assignment.Starts blocks rest

/-- The lexemes that may follow in a phase, up to the end of the program. -/
def Phase.Expects (blocks : List Block) : Phase → List Lexeme → Prop
  | opening, ls | statement, ls => Remainder blocks ls
  | print _, ls =>
    (∃ text rest, ls = .ofLiteral text :: rest ∧ LineEnd blocks rest) ∨
      Purpose.print.Starts blocks ls
  | condition b, ls => (Purpose.condition b false).Starts blocks ls
  | name use, ls => ∃ x rest, ls = .ofIdentifier x :: rest ∧ use.Follows blocks rest
  | named use _ _, ls => use.Follows blocks ls
  | operand p _, ls => p.Starts blocks ls
  | signed p, ls => ∃ (x : Primary) (rest : List Lexeme), ls = x.lexeme :: rest ∧
      p.Continues blocks rest
  | operator p, ls => p.Continues blocks ls
  | blockLine b, ls => ∃ rest, ls = .newline :: rest ∧ Remainder (b :: blocks) rest
  | blockBody b, ls => Remainder (b :: blocks) ls
  | blockEnd, ls | lineEnd, ls => LineEnd blocks ls

/-- The lexemes that may follow in a state. -/
def State.Expects (s : State) (ls : List Lexeme) : Prop := s.phase.Expects s.blocks ls

/-! ## One step -/

namespace State

variable {bound : Option Nat} {s s' : State} {t : Token} {p : Purpose} {ls : List Lexeme}

theorem of_expect_more {k : Kind} (h : (Move.expect k t s).progress = .more s') :
    t.kind = k ∧ s' = s := by
  unfold Move.expect at h
  split at h
  next hkind =>
    cases h
    exact ⟨hkind, rfl⟩
  next => cases h

theorem expects_lineEnd (ht : t.isWellFormed = true) (h : (s.lineEnd t).progress = .more s')
    (hls : s'.Expects ls) : LineEnd s.blocks (t.toLexeme :: ls) := by
  obtain ⟨hkind, rfl⟩ := of_expect_more h
  exact ⟨ls, congrArg (· :: ls) (Lexeme.eq_newline ht hkind), hls⟩

theorem expects_primary (ht : t.isWellFormed = true)
    (h : (s.primary p t).progress = .more s') (hls : s'.Expects ls) :
    ∃ (x : Primary) (rest : List Lexeme), t.toLexeme :: ls = x.lexeme :: rest ∧
      p.Continues s.blocks rest := by
  unfold primary at h
  split at h
  next hkind =>
    cases h
    obtain ⟨n, hn⟩ := Lexeme.exists_numeral ht hkind
    exact ⟨.number n, ls, congrArg (· :: ls) hn, hls⟩
  next hkind =>
    split at h
    next =>
      cases h
      obtain ⟨x, hx⟩ := Lexeme.exists_identifier ht hkind
      exact ⟨.reference x, ls, congrArg (· :: ls) hx, hls⟩
    next => cases h
  next => cases h

theorem expects_operand {afterSign : Bool} (ht : t.isWellFormed = true)
    (h : (s.operand p afterSign t).progress = .more s') (hls : s'.Expects ls) :
    p.Starts s.blocks (t.toLexeme :: ls) := by
  unfold operand at h
  split at h
  next hkind =>
    cases h
    obtain ⟨o, ho⟩ := Lexeme.exists_additive ht hkind
    obtain ⟨x, rest, rfl, hrest⟩ := hls
    rw [ho]
    exact hrest ⟨some o, x⟩
  next =>
    obtain ⟨x, rest, heq, hrest⟩ := expects_primary ht h hls
    rw [heq]
    exact hrest ⟨none, x⟩

theorem expects_expressionEnd (ht : t.isWellFormed = true)
    (h : (s.expressionEnd t p).progress = .more s') (hls : s'.Expects ls) :
    p.Follows s.blocks (t.toLexeme :: ls) := by
  cases p with
  | print => exact expects_lineEnd ht h hls
  | assignment => exact expects_lineEnd ht h hls
  | condition b compared =>
    simp only [expressionEnd] at h
    split at h
    next hkind =>
      cases h
      obtain ⟨o, ho⟩ := Lexeme.exists_comparison ht hkind
      -- behind it stands an expression, and further comparisons
      obtain ⟨e, rest, rfl, links, rest, rfl, -, hrest⟩ := hls
      refine ⟨(o, e) :: links, rest, ?_, fun _ => List.cons_ne_nil _ _, hrest⟩
      simp [ho]
    next =>
      split at h
      next hcompared =>
        obtain ⟨hkind, rfl⟩ := of_expect_more h
        obtain ⟨rest, rfl, hrest⟩ := hls
        refine ⟨[], rest, ?_, fun hfalse => ?_, hrest⟩
        · rw [Lexeme.eq_ofKeyword ht hkind]
          rfl
        · rw [hcompared] at hfalse
          cases hfalse
      next => cases h

theorem expects_operator (ht : t.isWellFormed = true)
    (h : (s.operator p t).progress = .more s') (hls : s'.Expects ls) :
    p.Continues s.blocks (t.toLexeme :: ls) := by
  -- whatever operand stood before the token
  intro u
  unfold operator at h
  split at h
  next hkind =>
    cases h
    obtain ⟨o, ho⟩ := Lexeme.exists_additive ht hkind
    obtain ⟨e, rest, rfl, hrest⟩ := hls
    exact ⟨.add u o e, rest, by simp [ho], hrest⟩
  next =>
    split at h
    next hkind =>
      cases h
      obtain ⟨o, ho⟩ := Lexeme.exists_multiplicative ht hkind
      obtain ⟨e, rest, rfl, hrest⟩ := hls
      exact ⟨.multiply u o e, rest, by simp [ho], hrest⟩
    next => exact ⟨.ofOperand u, _, by simp, expects_expressionEnd ht h hls⟩

theorem expects_print {newline : Bool} (ht : t.isWellFormed = true)
    (h : (s.print newline t).progress = .more s') (hls : s'.Expects ls) :
    (Phase.print newline).Expects s.blocks (t.toLexeme :: ls) := by
  unfold print at h
  dsimp only at h
  split at h
  next hkind =>
    cases h
    obtain ⟨text, htext⟩ := Lexeme.exists_literal ht hkind
    exact Or.inl ⟨text, ls, congrArg (· :: ls) htext, hls⟩
  next => exact Or.inr (expects_operand ht h hls)

theorem expects_name {use : Naming} (ht : t.isWellFormed = true)
    (h : (s.name use t).progress = .more s') (hls : s'.Expects ls) :
    (Phase.name use).Expects s.blocks (t.toLexeme :: ls) := by
  unfold name at h
  split at h
  next hkind =>
    split at h
    next => cases h
    next =>
      cases h
      obtain ⟨x, hx⟩ := Lexeme.exists_identifier ht hkind
      exact ⟨x, ls, congrArg (· :: ls) hx, hls⟩
  next => cases h

theorem expects_named {use : Naming} {x : Bytes} {position : Position}
    (ht : t.isWellFormed = true) (h : (s.named x position t use).progress = .more s')
    (hls : s'.Expects ls) : use.Follows s.blocks (t.toLexeme :: ls) := by
  cases use with
  | label => exact expects_lineEnd (s := { s with labels := s.labels ++ [x] }) ht h hls
  | jump => exact expects_lineEnd (s := { s with jumps := s.jumps ++ [(x, position)] }) ht h hls
  | input =>
    have hline := expects_lineEnd (s := s.assign x) ht h hls
    rw [blocks_assign] at hline
    exact hline
  | assignment =>
    obtain ⟨hkind, rfl⟩ := of_expect_more h
    refine ⟨ls, congrArg (· :: ls) (Lexeme.eq_ofOperator ht hkind), ?_⟩
    rw [← blocks_assign s x]
    exact hls

/-- What is printed, and the rest of the program. -/
theorem remainder_print (newline : Bool) {blocks : List Block}
    (h : (Phase.print newline).Expects blocks ls) :
    Remainder blocks (.ofKeyword (Simple.printWord newline) :: ls) := by
  rcases h with ⟨text, rest, rfl, hrest⟩ | ⟨e, rest, rfl, hrest⟩
  · exact Remainder.simple (.printText newline text) hrest
  · exact Remainder.simple (.printValue newline e) hrest

/-- The condition of a block, the block, and the rest of the program. -/
theorem remainder_condition (b : Block) {blocks : List Block}
    (h : (Phase.condition b).Expects blocks ls) :
    Remainder blocks (.ofKeyword b.firstWord :: ls) := by
  obtain ⟨e, rest, rfl, links, rest, rfl, hlinks, hrest⟩ := h
  have hblock := Remainder.block b ⟨⟨e, links⟩, hlinks rfl⟩ hrest
  simpa [Condition.lexemes, Chain.flatten] using hblock

theorem expects_statement (ht : t.isWellFormed = true)
    (h : (s.statement t).progress = .more s') (hls : s'.Expects ls) :
    Remainder s.blocks (t.toLexeme :: ls) := by
  -- one case for each word that starts a statement; the others do not go on
  unfold statement at h
  split at h <;> cases h
  case h_1 hkind =>
    rw [Lexeme.eq_ofKeyword ht hkind]
    exact remainder_print false hls
  case h_2 hkind =>
    rw [Lexeme.eq_ofKeyword ht hkind]
    exact remainder_print true hls
  case h_3 hkind =>
    rw [Lexeme.eq_ofKeyword ht hkind]
    exact remainder_condition .conditional hls
  case h_4 hkind =>
    rw [Lexeme.eq_ofKeyword ht hkind]
    exact remainder_condition .loop hls
  case h_5 hkind =>
    obtain ⟨x, rest, rfl, hrest⟩ := hls
    rw [Lexeme.eq_ofKeyword ht hkind]
    exact Remainder.simple (.label x) hrest
  case h_6 hkind =>
    obtain ⟨x, rest, rfl, hrest⟩ := hls
    rw [Lexeme.eq_ofKeyword ht hkind]
    exact Remainder.simple (.jump x) hrest
  case h_7 hkind =>
    obtain ⟨x, rest, rfl, rest, rfl, e, rest, rfl, hrest⟩ := hls
    rw [Lexeme.eq_ofKeyword ht hkind]
    exact Remainder.simple (.assignment x e) hrest
  case h_8 hkind =>
    obtain ⟨x, rest, rfl, hrest⟩ := hls
    rw [Lexeme.eq_ofKeyword ht hkind]
    exact Remainder.simple (.input x) hrest

theorem expects_item (ht : t.isWellFormed = true) (h : (s.item t).progress = .more s')
    (hls : s'.Expects ls) : Remainder s.blocks (t.toLexeme :: ls) := by
  unfold item at h
  split at h
  next =>
    split at h
    next => cases h
    next => exact expects_statement ht h hls
  next b outer hblocks =>
    split at h
    next hkind =>
      cases h
      rw [hblocks, Lexeme.eq_ofKeyword ht hkind]
      exact Remainder.close b hls
    next =>
      split at h
      next => cases h
      next => exact expects_statement ht h hls

theorem expects_itemLine (ht : t.isWellFormed = true) (h : (s.itemLine t).progress = .more s')
    (hls : s'.Expects ls) : Remainder s.blocks (t.toLexeme :: ls) := by
  unfold itemLine at h
  split at h
  next hkind =>
    cases h
    rw [Lexeme.eq_newline ht hkind]
    exact Remainder.newline hls
  next => exact expects_item ht h hls

theorem expects_blockBody {b : Block} (hs : s.phase = .blockBody b) (ht : t.isWellFormed = true)
    (h : (s.blockBody bound b t).progress = .more s') (hls : s'.Expects ls) :
    Remainder (b :: s.blocks) (t.toLexeme :: ls) := by
  by_cases hkind : t.kind = .newline
  · rw [blockBody_newline hkind] at h
    cases h
    rw [Lexeme.eq_newline ht hkind]
    rw [Expects, hs] at hls
    exact Remainder.newline hls
  · cases hallows : Depth.allows bound (s.blocks.length + 1) with
    | true =>
      rw [blockBody_of_allows hkind hallows] at h
      exact expects_item (s := s.openBlock b) ht h hls
    | false =>
      obtain ⟨n, -, hm⟩ := blockBody_of_not_allows b hkind hallows
      rw [hm] at h
      cases h

/-- A step that goes on has read the first of the lexemes that were expected. -/
theorem expects_of_step (ht : t.isWellFormed = true) (h : (s.step bound t).progress = .more s')
    (hls : s'.Expects ls) : s.Expects (t.toLexeme :: ls) := by
  rw [Expects]
  cases hphase : s.phase <;> simp only [step, hphase] at h
  case opening => exact expects_itemLine ht h hls
  case statement => exact expects_itemLine ht h hls
  case print => exact expects_print ht h hls
  case condition => exact expects_operand ht h hls
  case name => exact expects_name ht h hls
  case named => exact expects_named ht h hls
  case operand => exact expects_operand ht h hls
  case signed => exact expects_primary ht h hls
  case operator => exact expects_operator ht h hls
  case blockLine =>
    obtain ⟨hkind, rfl⟩ := of_expect_more h
    exact ⟨ls, congrArg (· :: ls) (Lexeme.eq_newline ht hkind), hls⟩
  case blockBody => exact expects_blockBody hphase ht h hls
  case blockEnd => exact expects_lineEnd ht h hls
  case lineEnd => exact expects_lineEnd ht h hls

/-! ## Whole runs -/

/-- A run that finishes at its last token has read what was expected where it started. -/
theorem expects_of_steps {ts : List Token} {e : Token} (hts : ∀ t ∈ ts, t.kind ≠ .eof)
    (hwell : ∀ t ∈ ts ++ [e], t.isWellFormed = true)
    (h : (s.steps bound (ts ++ [e])).progress = .finished s') :
    s.Expects ((ts ++ [e]).map Token.toLexeme) := by
  induction ts generalizing s with
  | nil =>
    have hstep : s.step bound e = ⟨(s.step bound e).emissions, .finished s'⟩ := by
      rw [List.nil_append, steps_singleton] at h
      rw [← h]
    obtain ⟨hkind, hblocks, hphase⟩ := step_finished hstep
    have he : e.toLexeme = .eof := Lexeme.eq_eof (hwell e (by simp)) hkind
    have hend : Remainder s.blocks [e.toLexeme] := by
      rw [he, hblocks]
      exact Remainder.eof
    rw [Expects]
    rcases hphase with hphase | hphase <;> rw [hphase] <;> exact hend
  | cons t ts ih =>
    rw [List.cons_append, steps_cons] at h
    cases hm : s.step bound t with
    | mk es progress =>
      rw [hm] at h
      cases progress with
      | more s₁ =>
        have hrest := ih (s := s₁) (fun x hx => hts x (List.mem_cons_of_mem _ hx))
          (fun x hx => hwell x (List.mem_cons_of_mem _ hx)) h
        exact expects_of_step (hwell t (by simp)) (congrArg Move.progress hm) hrest
      | finished s₁ => exact absurd (step_finished hm).1 (hts t (List.mem_cons_self ..))
      | refused d => cases h

/-- What a run finishes is the lexemes of a program. -/
theorem exists_program_of_finished {ts : List Token} {e : Token} (hts : ∀ t ∈ ts, t.kind ≠ .eof)
    (hwell : ∀ t ∈ ts ++ [e], t.isWellFormed = true)
    (h : (start.steps bound (ts ++ [e])).progress = .finished s') :
    ∃ p : Program, p.lexemes = (ts ++ [e]).map Token.toLexeme := by
  obtain ⟨blank, st, rest, heq, hrest⟩ := expects_of_steps hts hwell h
  refine ⟨⟨blank, st⟩, ?_⟩
  rw [heq, show rest = [.eof] from hrest, ← List.append_assoc]
  rfl

end State

end Teeny
