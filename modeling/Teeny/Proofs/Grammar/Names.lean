import Teeny.Proofs.Grammar.Scope

/-!
# The names in the tokens

A statement that names a variable or a label has a word and the name right behind it. What the
generator knows of names is told by the tokens it has acted on: the names behind certain words, in
order (`Token.behind`). A name is recorded one step late, with the token behind it, so a state has
at most one name pending (`State.settle`).

`State.Takes` says once what a step that goes on does about names, `State.Recalls` what the tokens
say about a state, and each step carries it along.
-/

namespace Teeny

/-! ## Words and the tokens behind them -/

/-- The word in front of a name. -/
def Naming.word : Naming → Keyword
  | label => .LABEL
  | jump => .GOTO
  | assignment => .LET
  | input => .INPUT

/-- What a statement does with its name. -/
def Naming.mention : Naming → Bytes → Mention
  | label => .label
  | jump => .jump
  | assignment | input => .assign

/-- What the name behind a word of this kind is for, if there has to be one. -/
def Kind.naming? : Kind → Option Naming
  | .keyword .LABEL => some .label
  | .keyword .GOTO => some .jump
  | .keyword .LET => some .assignment
  | .keyword .INPUT => some .input
  | _ => none

theorem Kind.naming?_keyword {k : Keyword} {use : Naming} :
    (Kind.keyword k).naming? = some use ↔ k = use.word := by
  cases k <;> cases use <;> decide

theorem Kind.exists_keyword_of_naming? {k : Kind} {use : Naming} (h : k.naming? = some use) :
    k = .keyword use.word := by
  cases k with
  | keyword k => rw [naming?_keyword.1 h]
  | _ => cases h

namespace Token

/-- Whether a token is one of the words. -/
def isWordIn (words : List Keyword) (t : Token) : Bool := words.any fun k => t.kind = .keyword k

/-- The tokens that stand right behind one of the words. -/
def behind (words : List Keyword) : List Token → List Token
  | w :: t :: ts =>
    if w.isWordIn words then t :: behind words (t :: ts) else behind words (t :: ts)
  | _ => []

/-- The variables that the tokens give a value to, each once, in the order in which they come
first. -/
def assignees (ts : List Token) : List Bytes :=
  ((behind [.LET, .INPUT] ts).map fun t => t.text).eraseDups

theorem behind_concat (words : List Keyword) (ts : List Token) (t : Token) :
    behind words (ts ++ [t]) =
      behind words ts ++ if ts.getLast?.any (isWordIn words) then [t] else [] := by
  induction ts with
  | nil => rfl
  | cons w ts ih =>
    cases ts with
    | nil => rfl
    | cons u ts =>
      rw [List.getLast?_cons_cons, List.cons_append, List.cons_append, behind, behind]
      rw [List.cons_append] at ih
      split
      next => rw [ih, List.cons_append]
      next => exact ih

/-- Of words that need a name behind them, a token is the one that its kind says. -/
theorem isWordIn_eq {words : List Keyword}
    (hwords : (words.all fun k => (Kind.keyword k).naming?.isSome) = true) (t : Token) :
    t.isWordIn words = t.kind.naming?.any fun use => words.contains use.word := by
  cases hname : t.kind.naming? with
  | none =>
    refine List.any_eq_false.2 fun k hk ht => ?_
    have hsome := List.all_eq_true.1 hwords k hk
    rw [← of_decide_eq_true ht, hname] at hsome
    cases hsome
  | some use =>
    rw [isWordIn, Kind.exists_keyword_of_naming? hname, Option.any_some, List.contains_eq_any_beq]
    refine congrArg words.any (funext fun k => ?_)
    rw [Bool.eq_iff_iff, decide_eq_true_iff, beq_iff_eq, Kind.keyword.injEq]

theorem sublist_behind (words : List Keyword) (ts : List Token) :
    (behind words ts).Sublist ts.tail := by
  fun_induction behind words ts with
  | case1 w t ts hw ih => exact ih.cons_cons t
  | case2 w t ts hw ih => exact ih.cons t
  | case3 ts hts => exact List.nil_sublist _

end Token

/-! ## What a step does about names -/

namespace Phase

/-- What the name that has to follow is for. -/
def naming? : Phase → Option Naming
  | .name use => some use
  | _ => none

/-- Whether the program has started and no name is pending. -/
def isSettled : Phase → Bool
  | .opening | .named _ _ _ => false
  | _ => true

theorem naming?_eq_some {p : Phase} {use : Naming} : p.naming? = some use ↔ p = .name use := by
  cases p <;> simp [naming?]

end Phase

namespace State

/-- All that a state knows of names. -/
def names (s : State) : List Bytes × List Bytes × List (Bytes × Position) :=
  (s.assigned, s.labels, s.jumps)

/-- The state with its pending name recorded. -/
def settle (s : State) : State :=
  match s.phase with
  | .named use x position => s.mention position (use.mention x)
  | _ => s

theorem settle_of_isSettled {s : State} (h : s.phase.isSettled = true) : s.settle = s := by
  unfold settle
  split
  next hphase =>
    rw [hphase] at h
    cases h
  next => rfl

/-- What a step that goes on does about names. -/
structure Takes (s : State) (t : Token) (s' : State) : Prop where
  /-- What was pending is recorded, and nothing else. -/
  names : s'.names = s.settle.names
  /-- A name is looked for exactly behind a word that needs one. -/
  word : s'.phase.naming? = t.kind.naming?
  /-- Where a name is looked for, the token is one, and it is pending. -/
  name : ∀ use, s.phase = .name use → t.kind = .name ∧ s'.phase = .named use t.text t.position
  /-- Elsewhere nothing is pending. -/
  settled : s.phase.naming? = none → s'.phase.isSettled = true

end State

/-- A move that, where it goes on, knows the names as given, and looks for one exactly if the token
needs one behind it. -/
def Move.Records (known : State) (t : Token) (m : Move) : Prop :=
  ∀ s, m.progress = .more s →
    s.names = known.names ∧ s.phase.naming? = t.kind.naming? ∧ s.phase.isSettled = true

namespace Move

variable {known : State} {t : Token}

@[simp] theorem records_after {es : List Emission} {m : Move} :
    Records known t (after es m) ↔ Records known t m := Iff.rfl

@[simp] theorem records_refuse (fault : Fault) : Records known t (refuse t fault) := by
  intro s h
  cases h

theorem records_more {es : List Emission} {s : State} (hnames : s.names = known.names)
    (hword : s.phase.naming? = t.kind.naming?) (hsettled : s.phase.isSettled = true) :
    Records known t ⟨es, .more s⟩ := by
  intro s' h
  cases h
  exact ⟨hnames, hword, hsettled⟩

theorem records_expect {k : Kind} {s : State} (hnames : s.names = known.names)
    (hword : s.phase.naming? = k.naming?) (hsettled : s.phase.isSettled = true) :
    Records known t (expect k t s) := by
  unfold expect
  split
  next h => exact records_more hnames (h ▸ hword) hsettled
  next => exact records_refuse _

end Move

namespace State

open Move

variable {bound : Option Nat} {s : State} {t : Token}

theorem records_lineEnd {known : State} (h : s.names = known.names) :
    (s.lineEnd t).Records known t :=
  records_expect h rfl rfl

/-- An operator needs no name behind it. -/
theorem records_operatorToken {es : List Emission} {p : Phase} (ht : ∃ o, t.kind = .operator o)
    (hname : p.naming? = none) (hsettled : p.isSettled = true) :
    Move.Records s t ⟨es, .more (s.enter p)⟩ := by
  obtain ⟨o, ho⟩ := ht
  exact records_more rfl (by rw [ho]; exact hname) hsettled

theorem records_primary {p : Purpose} : (s.primary p t).Records s t := by
  unfold primary
  split
  next h => exact records_more rfl (by rw [h]; rfl) rfl
  next h =>
    split
    next => exact records_more rfl (by rw [h]; rfl) rfl
    next => exact records_refuse _
  next => exact records_refuse _

theorem records_operand {p : Purpose} {afterSign : Bool} :
    (s.operand p afterSign t).Records s t := by
  unfold operand
  split
  next h => exact records_after.2 (records_operatorToken (exists_operator_of_isAdditive h) rfl rfl)
  next => exact records_primary

theorem records_expressionEnd {p : Purpose} : (s.expressionEnd t p).Records s t := by
  cases p with
  | print => exact records_after.2 (records_lineEnd rfl)
  | assignment => exact records_after.2 (records_lineEnd rfl)
  | condition b compared =>
    simp only [expressionEnd]
    split
    next h => exact records_operatorToken (exists_operator_of_isComparison h) rfl rfl
    next =>
      split
      next => exact records_expect rfl (by cases b <;> rfl) rfl
      next => exact records_refuse _

theorem records_operator {p : Purpose} : (s.operator p t).Records s t := by
  unfold operator
  split
  next h => exact records_operatorToken (exists_operator_of_isAdditive h) rfl rfl
  next =>
    split
    next h => exact records_operatorToken (exists_operator_of_isMultiplicative h) rfl rfl
    next => exact records_expressionEnd

theorem records_print {newline : Bool} : (s.print newline t).Records s t := by
  unfold print
  dsimp only
  split
  next h => exact records_more rfl (by rw [h]; rfl) rfl
  next => exact records_after.2 records_operand

/-- With the token behind a name the name is recorded. -/
theorem records_named {x : Bytes} {position : Position} {use : Naming} :
    (s.named x position t use).Records (s.mention position (use.mention x)) t := by
  cases use with
  | label => exact records_after.2 (records_lineEnd rfl)
  | jump => exact records_after.2 (records_lineEnd rfl)
  | assignment => exact records_after.2 (records_expect rfl rfl rfl)
  | input => exact records_after.2 (records_lineEnd rfl)

theorem records_statement : (s.statement t).Records s t := by
  unfold statement
  split
  case h_9 => exact records_refuse _
  all_goals
    rename_i h
    exact records_more rfl (by rw [h]; rfl) rfl

theorem records_item : (s.item t).Records s t := by
  unfold item
  split
  next =>
    split
    next =>
      intro s' h
      cases h
    next => exact records_statement
  next b outer hblocks =>
    split
    next h => exact records_more rfl (by rw [h]; cases b <;> rfl) rfl
    next =>
      split
      next => exact records_refuse _
      next => exact records_statement

theorem records_itemLine : (s.itemLine t).Records s t := by
  unfold itemLine
  split
  next h => exact records_more rfl (by rw [h]; rfl) rfl
  next => exact records_item

theorem records_blockBody {b : Block} (hphase : s.phase = .blockBody b) :
    (s.blockBody bound b t).Records s t := by
  by_cases ht : t.kind = .newline
  · rw [blockBody_newline ht]
    exact records_more rfl (by rw [ht, hphase]; rfl) (by rw [hphase]; rfl)
  · cases hallows : Depth.allows bound (s.blocks.length + 1) with
    | false =>
      obtain ⟨n, -, hm⟩ := blockBody_of_not_allows b ht hallows
      rw [hm]
      exact records_after.2 (records_refuse _)
    | true =>
      rw [blockBody_of_allows ht hallows]
      exact records_after.2 (@records_item (s.openBlock b) t)

/-- Unless a name is looked for, a step records what is pending, and looks for a name exactly if the
token needs one behind it. -/
theorem records_step (h : s.phase.naming? = none) : (s.step bound t).Records s.settle t := by
  cases hphase : s.phase <;> simp only [step, settle, hphase, records_after]
  case opening => exact records_itemLine
  case statement => exact records_itemLine
  case print => exact records_print
  case condition => exact records_operand
  case name use =>
    rw [hphase] at h
    cases h
  case named => exact records_named
  case operand => exact records_operand
  case signed => exact records_primary
  case operator => exact records_operator
  case blockLine => exact records_expect rfl rfl rfl
  case blockBody => exact records_blockBody hphase
  case blockEnd => exact records_lineEnd rfl
  case lineEnd => exact records_lineEnd rfl

theorem takes_of_step {s' : State} (h : (s.step bound t).progress = .more s') : s.Takes t s' := by
  cases hname : s.phase.naming? with
  | none =>
    obtain ⟨hnames, hword, hsettled⟩ := records_step hname s' h
    refine ⟨hnames, hword, ?_, fun _ => hsettled⟩
    intro use hphase
    rw [hphase] at hname
    cases hname
  | some use =>
    have hphase := Phase.naming?_eq_some.1 hname
    simp only [step, hphase, name] at h
    split at h
    next ht =>
      split at h
      next => cases h
      next =>
        cases h
        refine ⟨?_, by rw [ht]; rfl, ?_, ?_⟩
        · simp only [settle, hphase]
          rfl
        · intro use' huse
          rw [hphase] at huse
          cases huse
          exact ⟨ht, rfl⟩
        · intro hnone
          rw [hname] at hnone
          cases hnone
    next => cases h

/-! ## What the tokens say about a state -/

/-- What the tokens read so far say about the names that a state knows and looks for. -/
structure Recalls (before : List Token) (s : State) : Prop where
  /-- A name is looked for exactly behind a word that needs one. -/
  word : s.phase.naming? = before.getLast?.bind fun w => w.kind.naming?
  /-- A pending name is one of the tokens. -/
  pending : ∀ use x p, s.phase = .named use x p →
    ∃ t ∈ before, t.kind = .name ∧ t.text = x
  /-- The program has started with the first token. -/
  opening : s.phase = .opening ↔ before = []
  assigned : s.settle.assigned = Token.assignees before
  labels : s.settle.labels = (Token.behind [.LABEL] before).map fun t => t.text
  jumps : s.settle.jumps = (Token.behind [.GOTO] before).map fun t => (t.text, t.position)

theorem recalls_start : Recalls [] start := by
  refine ⟨rfl, ?_, by simp [start], rfl, rfl, rfl⟩
  intro use x p h
  cases h

/-- A variable is added to those assigned exactly if it is not among them. -/
theorem assigned_assign {xs : List Bytes} (h : s.assigned = xs.eraseDups) (x : Bytes) :
    (s.assign x).assigned = (xs ++ [x]).eraseDups := by
  have hmem : x ∈ s.assigned ↔ x ∈ xs := by rw [h, List.mem_eraseDups]
  rw [List.eraseDups_append]
  unfold assign
  by_cases hx : x ∈ xs
  · rw [if_pos (hmem.2 hx), h]
    simp [List.removeAll, hx]
  · rw [if_neg (mt hmem.1 hx), h]
    simp [List.removeAll, hx, List.eraseDups_cons]

theorem labels_assign (x : Bytes) : (s.assign x).labels = s.labels := by
  unfold assign
  split <;> rfl

theorem jumps_assign (x : Bytes) : (s.assign x).jumps = s.jumps := by
  unfold assign
  split <;> rfl

namespace Recalls

variable {before : List Token} {s' : State}

theorem behind_concat (h : Recalls before s) (words : List Keyword)
    (hwords : (words.all fun k => (Kind.keyword k).naming?.isSome) = true) (t : Token) :
    Token.behind words (before ++ [t]) =
      Token.behind words before ++
        if s.phase.naming?.any fun use => words.contains use.word then [t] else [] := by
  have hlast : before.getLast?.any (Token.isWordIn words) =
      s.phase.naming?.any fun use => words.contains use.word := by
    rw [h.word, Option.any_bind, funext (Token.isWordIn_eq hwords)]
    rfl
  rw [Token.behind_concat, hlast]

/-- A step carries along what the tokens say. -/
theorem takes (h : Recalls before s) (ht : s.Takes t s') : Recalls (before ++ [t]) s' := by
  have hvariables := h.behind_concat [.LET, .INPUT] rfl t
  have hlabels := h.behind_concat [.LABEL] rfl t
  have hjumps := h.behind_concat [.GOTO] rfl t
  have hword : s'.phase.naming? = (before ++ [t]).getLast?.bind fun w => w.kind.naming? := by
    rw [List.getLast?_concat]
    exact ht.word
  obtain ⟨hassigned', hlabels', hjumps'⟩ :
      s'.assigned = s.settle.assigned ∧ s'.labels = s.settle.labels ∧
        s'.jumps = s.settle.jumps := by
    have hnames := ht.names
    simp only [names, Prod.mk.injEq] at hnames
    exact hnames
  rw [h.assigned] at hassigned'
  rw [h.labels] at hlabels'
  rw [h.jumps] at hjumps'
  cases hname : s.phase.naming? with
  | none =>
    rw [hname, Option.any_none, if_neg Bool.false_ne_true, List.append_nil]
      at hvariables hlabels hjumps
    have hsettled := ht.settled hname
    refine ⟨hword, ?_, ?_, ?_, ?_, ?_⟩
    · intro use x p hphase
      rw [hphase] at hsettled
      cases hsettled
    · constructor
      · intro hphase
        rw [hphase] at hsettled
        cases hsettled
      · intro hnil
        simp at hnil
    · rw [settle_of_isSettled hsettled, hassigned', Token.assignees, Token.assignees, hvariables]
    · rw [settle_of_isSettled hsettled, hlabels', hlabels]
    · rw [settle_of_isSettled hsettled, hjumps', hjumps]
  | some use =>
    obtain ⟨hkind, hphase⟩ := ht.name use (Phase.naming?_eq_some.1 hname)
    rw [hname, Option.any_some] at hvariables hlabels hjumps
    have hsettle : s'.settle = s'.mention t.position (use.mention t.text) := by
      simp only [settle, hphase]
    refine ⟨hword, ?_, ?_, ?_, ?_, ?_⟩
    · intro use' x p hphase'
      rw [hphase] at hphase'
      cases hphase'
      exact ⟨t, by simp, hkind, rfl⟩
    · rw [hphase]
      simp
    · rw [hsettle, Token.assignees, hvariables, List.map_append]
      cases use with
      | label => exact hassigned'.trans (by simp [Naming.word, Token.assignees])
      | jump => exact hassigned'.trans (by simp [Naming.word, Token.assignees])
      | assignment => exact assigned_assign hassigned' t.text
      | input => exact assigned_assign hassigned' t.text
    · rw [hsettle, hlabels, List.map_append]
      cases use with
      | label => exact congrArg (· ++ [t.text]) hlabels'
      | jump => exact hlabels'.trans (by simp [Naming.word])
      | assignment => exact (labels_assign _).trans (hlabels'.trans (by simp [Naming.word]))
      | input => exact (labels_assign _).trans (hlabels'.trans (by simp [Naming.word]))
    · rw [hsettle, hjumps, List.map_append]
      cases use with
      | label => exact hjumps'.trans (by simp [Naming.word])
      | jump => exact congrArg (· ++ [(t.text, t.position)]) hjumps'
      | assignment => exact (jumps_assign _).trans (hjumps'.trans (by simp [Naming.word]))
      | input => exact (jumps_assign _).trans (hjumps'.trans (by simp [Naming.word]))

end Recalls

/-- What the generator knows of names is told by the tokens it has acted on. -/
theorem recalls_steps {ts : List Token} {es : List Emission} {s : State}
    (h : start.steps bound ts = ⟨es, .more s⟩) : Recalls ts s := by
  refine steps_invariant (fun before _ s => Recalls before s) ?_ [] recalls_start h
  intro before es t s fs s' hrecalls hstep
  exact hrecalls.takes (takes_of_step (congrArg Move.progress hstep))

end State

end Teeny
