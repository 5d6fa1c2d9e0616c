import Teeny.Proofs.Grammar.Concatenation
import Teeny.Proofs.Grammar.Names

/-!
# Variables are declared once, and before any use

A step emits lines of the header first and code of the body behind them (`State.lead`), and the code
carries no variable but those assigned so far, the pending one included (`State.keepTo_step`). So
the header lines of a run are told by the tokens it has acted on, at every point, and every variable
in the body has its declaration before it.

Which variable an emission carries is read off its text (`Emission.Carries`). Nothing else that is
emitted reads the same, whatever stands in a string or is used as a label.
-/

namespace Teeny

/-! ## The variable in an emission -/

namespace Emission

/-- Whether an emission is a line of the header. -/
def isHeader : Emission → Bool
  | header _ => true
  | code _ | line _ => false

/-- An emission of the body carries a variable. -/
inductive Carries (x : Identifier) : Emission → Prop where
  /-- The variable in an expression or a comparison. -/
  | operand : Carries x (.code x.text)
  /-- The variable that an expression is assigned to. -/
  | target : Carries x (.code (x.text ++ bytes " = "))
  /-- The line that reads the variable from the input. -/
  | read : Carries x (.line (bytes "if (0 == scanf(\"%f\", &" ++ x.text ++ bytes ")) \x7b"))
  /-- The line that sets the variable if there is no number in the input. -/
  | zero : Carries x (.line (x.text ++ bytes " = 0;"))

end Emission

theorem Identifier.notMem (x : Identifier) {b : UInt8} (hb : Bytes.isAtom b = false) :
    b ∉ x.text := by
  intro hmem
  rw [x.isAtom.2 b hmem] at hb
  cases hb

namespace Emission

theorem Carries.code {x : Identifier} {text : Bytes} (h : Carries x (.code text)) :
    text = x.text ∨ text = x.text ++ bytes " = " := by
  cases h with
  | operand => exact Or.inl rfl
  | target => exact Or.inr rfl

theorem Carries.line {x : Identifier} {text : Bytes} (h : Carries x (.line text)) :
    text = bytes "if (0 == scanf(\"%f\", &" ++ x.text ++ bytes ")) \x7b" ∨
      text = x.text ++ bytes " = 0;" := by
  cases h with
  | read => exact Or.inl rfl
  | zero => exact Or.inr rfl

/-- A piece of code that carries a variable starts with a letter. -/
theorem Carries.isLetter {x : Identifier} {text : Bytes} (h : Carries x (.code text)) :
    ∃ b ∈ text.head?, (Glyph.ofByte b).isLetter = true := by
  obtain ⟨b, rest, hx, hb⟩ := x.exists_head
  rcases h.code with rfl | rfl
  · exact ⟨b, by rw [hx]; rfl, hb⟩
  · exact ⟨b, by rw [hx]; rfl, hb⟩

/-- A piece of code that carries a variable opens no parenthesis. -/
theorem Carries.parenthesis_notMem {x : Identifier} {text : Bytes} (h : Carries x (.code text)) :
    40 ∉ text := by
  have hx : (40 : UInt8) ∉ x.text := x.notMem (by decide)
  rcases h.code with rfl | rfl
  · exact hx
  · intro hmem
    rcases List.mem_append.1 hmem with hmem | hmem
    · exact hx hmem
    · exact absurd hmem (by decide)

/-- A line that carries a variable has an equals sign. -/
theorem Carries.equals_mem {x : Identifier} {text : Bytes} (h : Carries x (.line text)) :
    61 ∈ text := by
  rcases h.line with rfl | rfl
  · exact List.mem_append_left _ (List.mem_append_left _ (by decide))
  · exact List.mem_append_right _ (by decide)

/-- A line that carries a variable and opens a parenthesis reads the variable. -/
theorem Carries.eq_read {x : Identifier} {text : Bytes} (h : Carries x (.line text))
    (hmem : 40 ∈ text) :
    text = bytes "if (0 == scanf(\"%f\", &" ++ x.text ++ bytes ")) \x7b" := by
  rcases h.line with htext | rfl
  · exact htext
  · rcases List.mem_append.1 hmem with hmem | hmem
    · exact absurd hmem (x.notMem (by decide))
    · exact absurd hmem (by decide)

/-- Emissions of the body that carry none but the given variables. -/
def KeepTo (known : List Bytes) (es : List Emission) : Prop :=
  ∀ e ∈ es, e.isHeader = false ∧ ∀ x, Carries x e → x.text ∈ known

variable {known : List Bytes} {text : Bytes}

theorem keepTo_nil : KeepTo known [] := List.forall_mem_nil _

theorem keepTo_append {es fs : List Emission} :
    KeepTo known (es ++ fs) ↔ KeepTo known es ∧ KeepTo known fs := List.forall_mem_append

theorem keepTo_cons {e : Emission} {es : List Emission} :
    KeepTo known (e :: es) ↔ KeepTo known [e] ∧ KeepTo known es := by
  rw [← keepTo_append, List.singleton_append]

/-- Code that does not start with a letter carries no variable. -/
theorem keepTo_code (h : text.head?.any (fun b => (Glyph.ofByte b).isLetter) = false) :
    KeepTo known [.code text] := by
  refine List.forall_mem_singleton.2 ⟨rfl, fun x hx => ?_⟩
  obtain ⟨b, hmem, hb⟩ := hx.isLetter
  rw [Option.mem_def.1 hmem, Option.any_some, hb] at h
  cases h

/-- Code that opens a parenthesis carries no variable. -/
theorem keepTo_code_of_parenthesis (h : 40 ∈ text) : KeepTo known [.code text] :=
  List.forall_mem_singleton.2 ⟨rfl, fun _ hx => absurd h hx.parenthesis_notMem⟩

/-- A line without an equals sign carries no variable. -/
theorem keepTo_line (h : 61 ∉ text) : KeepTo known [.line text] :=
  List.forall_mem_singleton.2 ⟨rfl, fun _ hx => absurd hx.equals_mem h⟩

/-- A line that prints carries no variable, whatever it prints. -/
theorem keepTo_print : KeepTo known [.line (bytes "printf(\"" ++ text)] := by
  refine List.forall_mem_singleton.2 ⟨rfl, fun x hx => ?_⟩
  have hread := congrArg List.head? (hx.eq_read (List.mem_append_left _ (by decide)))
  cases hread

variable {y : Identifier}

theorem keepTo_reference (h : y.text ∈ known) : KeepTo known [.code y.text] := by
  refine List.forall_mem_singleton.2 ⟨rfl, fun x hx => ?_⟩
  rcases hx.code with htext | htext
  · rwa [← htext]
  · have hmem : (61 : UInt8) ∈ y.text := htext ▸ List.mem_append_right _ (by decide)
    exact absurd hmem (y.notMem (by decide))

theorem keepTo_target (h : y.text ∈ known) : KeepTo known [.code (y.text ++ bytes " = ")] := by
  refine List.forall_mem_singleton.2 ⟨rfl, fun x hx => ?_⟩
  rcases hx.code with htext | htext
  · have hmem : (61 : UInt8) ∈ x.text := htext ▸ List.mem_append_right _ (by decide)
    exact absurd hmem (x.notMem (by decide))
  · rwa [← List.append_cancel_right htext]

theorem keepTo_read (h : y.text ∈ known) :
    KeepTo known [.line (bytes "if (0 == scanf(\"%f\", &" ++ y.text ++ bytes ")) \x7b")] := by
  refine List.forall_mem_singleton.2 ⟨rfl, fun x hx => ?_⟩
  have hread := hx.eq_read (List.mem_append_left _ (List.mem_append_left _ (by decide)))
  rwa [← List.append_cancel_left (List.append_cancel_right hread)]

theorem keepTo_zero (h : y.text ∈ known) : KeepTo known [.line (y.text ++ bytes " = 0;")] := by
  refine List.forall_mem_singleton.2 ⟨rfl, fun x hx => ?_⟩
  rcases hx.line with htext | htext
  · have hmem : (40 : UInt8) ∈ y.text ++ bytes " = 0;" :=
      htext ▸ List.mem_append_left _ (List.mem_append_left _ (by decide))
    rcases List.mem_append.1 hmem with hmem | hmem
    · exact absurd hmem (y.notMem (by decide))
    · exact absurd hmem (by decide)
  · rwa [← List.append_cancel_right htext]

/-- Around a label stands no equals sign. -/
theorem keepTo_label {before after : Bytes} (hbefore : 61 ∉ before) (hafter : 61 ∉ after) :
    KeepTo known [.line (before ++ y.text ++ after)] := by
  refine keepTo_line fun hmem => ?_
  rcases List.mem_append.1 hmem with hmem | hmem
  · rcases List.mem_append.1 hmem with hmem | hmem
    · exact hbefore hmem
    · exact y.notMem (by decide) hmem
  · exact hafter hmem

end Emission

/-! ## What a step emits -/

namespace State

open Move Emission

/-- The header lines that the next step emits. -/
def lead (s : State) : List Emission :=
  match s.phase with
  | .opening => preamble
  | .named .assignment x _ | .named .input x _ => s.declaration x
  | _ => []

variable {bound : Option Nat} {s : State} {t : Token} {known : List Bytes}

@[simp] theorem emissions_expect (k : Kind) (s : State) : (expect k t s).emissions = [] := by
  unfold expect
  split <;> rfl

theorem keepTo_operatorToken (ht : t.isWellFormed = true) (hkind : ∃ o, t.kind = .operator o) :
    KeepTo known [.code t.text] := by
  obtain ⟨o, ho⟩ := hkind
  have htext : t.text = o.spelling := congrArg Lexeme.text (Lexeme.eq_ofOperator ht ho)
  rw [htext]
  apply keepTo_code
  cases o <;> rfl

theorem keepTo_primary (ht : t.isWellFormed = true) {p : Purpose} :
    KeepTo s.assigned (s.primary p t).emissions := by
  unfold primary
  split
  next hkind =>
    obtain ⟨n, hn⟩ := Lexeme.exists_numeral ht hkind
    obtain ⟨b, rest, htext, hb⟩ := n.exists_head
    rw [show t.text = n.text from congrArg Lexeme.text hn]
    apply keepTo_code
    rw [htext, List.head?_cons, Option.any_some]
    refine Bool.eq_false_iff.2 fun hletter => ?_
    rw [(Cursor.ne_of_isLetter hletter).2.2] at hb
    cases hb
  next hkind =>
    split
    next hmem =>
      obtain ⟨y, hy⟩ := Lexeme.exists_identifier ht hkind
      have htext : t.text = y.text := congrArg Lexeme.text hy
      rw [htext] at hmem ⊢
      exact keepTo_reference hmem
    next => exact keepTo_nil
  next => exact keepTo_nil

theorem keepTo_operand (ht : t.isWellFormed = true) {p : Purpose} {afterSign : Bool} :
    KeepTo s.assigned (s.operand p afterSign t).emissions := by
  unfold operand
  split
  next hkind =>
    refine keepTo_append.2 ⟨?_, keepTo_operatorToken ht (exists_operator_of_isAdditive hkind)⟩
    split
    next => exact keepTo_code rfl
    next => exact keepTo_nil
  next => exact keepTo_primary ht

theorem keepTo_expressionEnd (ht : t.isWellFormed = true) {p : Purpose} :
    KeepTo s.assigned (s.expressionEnd t p).emissions := by
  cases p with
  | print =>
    simp only [expressionEnd, lineEnd, after, emissions_expect]
    exact keepTo_line (by decide)
  | assignment =>
    simp only [expressionEnd, lineEnd, after, emissions_expect]
    exact keepTo_line (by decide)
  | condition b compared =>
    simp only [expressionEnd]
    split
    next hkind => exact keepTo_operatorToken ht (exists_operator_of_isComparison hkind)
    next =>
      split
      next =>
        rw [emissions_expect]
        exact keepTo_nil
      next => exact keepTo_nil

theorem keepTo_operator (ht : t.isWellFormed = true) {p : Purpose} :
    KeepTo s.assigned (s.operator p t).emissions := by
  unfold operator
  split
  next hkind => exact keepTo_operatorToken ht (exists_operator_of_isAdditive hkind)
  next =>
    split
    next hkind => exact keepTo_operatorToken ht (exists_operator_of_isMultiplicative hkind)
    next => exact keepTo_expressionEnd ht

theorem keepTo_printed (ht : t.isWellFormed = true) {newline : Bool} :
    KeepTo s.assigned (s.print newline t).emissions := by
  unfold print
  dsimp only
  split
  next =>
    rw [List.append_assoc, List.append_assoc]
    exact keepTo_print
  next =>
    refine keepTo_append.2 ⟨keepTo_code_of_parenthesis ?_, keepTo_operand ht⟩
    exact List.mem_append_left _ (List.mem_append_left _ (by decide))

theorem emissions_name {use : Naming} : (s.name use t).emissions = [] := by
  unfold name
  split
  next => split <;> rfl
  next => rfl

theorem emissions_statement : (s.statement t).emissions = [] := by
  unfold statement
  split <;> rfl

theorem keepTo_item : KeepTo known (s.item t).emissions := by
  unfold item
  split
  next =>
    split
    next =>
      exact keepTo_cons.2 ⟨keepTo_line (by decide), keepTo_line (by decide)⟩
    next =>
      rw [emissions_statement]
      exact keepTo_nil
  next =>
    split
    next => exact keepTo_nil
    next =>
      split
      next => exact keepTo_nil
      next =>
        rw [emissions_statement]
        exact keepTo_nil

theorem keepTo_itemLine : KeepTo known (s.itemLine t).emissions := by
  unfold itemLine
  split
  next => exact keepTo_nil
  next => exact keepTo_item

theorem keepTo_blockBody {b : Block} : KeepTo known (s.blockBody bound b t).emissions := by
  by_cases ht : t.kind = .newline
  · rw [blockBody_newline ht]
    exact keepTo_nil
  · cases hallows : Depth.allows bound (s.blocks.length + 1) with
    | false =>
      obtain ⟨n, -, hm⟩ := blockBody_of_not_allows b ht hallows
      rw [hm]
      exact keepTo_line (by decide)
    | true =>
      rw [blockBody_of_allows ht hallows]
      exact keepTo_cons.2 ⟨keepTo_line (by decide), keepTo_item⟩

/-- With the token behind a name, a variable is declared unless it has been, and what follows
carries no other one. -/
theorem keepTo_named {y : Identifier} {position : Position} {use : Naming}
    (hphase : s.phase = .named use y.text position) :
    ∃ rest, (s.named y.text position t use).emissions = s.lead ++ rest ∧
      KeepTo s.settle.assigned rest := by
  have hassigned : y.text ∈ (s.assign y.text).assigned := by
    unfold assign
    split
    next h => exact h
    next => exact List.mem_append_right _ (List.mem_singleton_self _)
  cases use with
  | label =>
    refine ⟨[.line ([] ++ y.text ++ bytes ":;")], ?_, keepTo_label (by decide) (by decide)⟩
    simp only [named, lead, hphase, lineEnd, after, emissions_expect]
    rfl
  | jump =>
    refine ⟨[.line (bytes "goto " ++ y.text ++ bytes ";")], ?_,
      keepTo_label (by decide) (by decide)⟩
    simp only [named, lead, hphase, lineEnd, after, emissions_expect]
    rfl
  | assignment =>
    refine ⟨[.code (y.text ++ bytes " = ")], ?_, ?_⟩
    · simp only [named, lead, hphase, after, emissions_expect, List.append_nil]
    · simp only [settle, hphase]
      exact keepTo_target hassigned
  | input =>
    refine ⟨[.line (bytes "if (0 == scanf(\"%f\", &" ++ y.text ++ bytes ")) \x7b"),
      .line (y.text ++ bytes " = 0;"), .line (bytes "scanf(\"%*s\");"), .line (bytes "\x7d")],
      ?_, ?_⟩
    · simp only [named, lead, hphase, lineEnd, after, emissions_expect, List.append_nil]
    · simp only [settle, hphase]
      exact keepTo_cons.2 ⟨keepTo_read hassigned, keepTo_cons.2 ⟨keepTo_zero hassigned,
        keepTo_cons.2 ⟨keepTo_line (by decide), keepTo_line (by decide)⟩⟩⟩

theorem lead_of_isSettled (h : s.phase.isSettled = true) : s.lead = [] := by
  cases hphase : s.phase <;> simp only [lead, hphase]
  case opening =>
    rw [hphase] at h
    cases h
  case named =>
    rw [hphase] at h
    cases h

/-- Unless the program starts or a name is pending, a step emits no header line, and carries no
variable but those assigned. -/
theorem keepTo_step_of_isSettled (ht : t.isWellFormed = true) (h : s.phase.isSettled = true) :
    KeepTo s.assigned (s.step bound t).emissions := by
  cases hphase : s.phase <;> simp only [step, hphase]
  case opening =>
    rw [hphase] at h
    cases h
  case named =>
    rw [hphase] at h
    cases h
  case statement => exact keepTo_itemLine
  case print => exact keepTo_printed ht
  case condition b =>
    refine keepTo_append.2 ⟨keepTo_code_of_parenthesis ?_, keepTo_operand ht⟩
    cases b <;> decide
  case name =>
    rw [emissions_name]
    exact keepTo_nil
  case operand => exact keepTo_operand ht
  case signed => exact keepTo_primary ht
  case operator => exact keepTo_operator ht
  case blockLine =>
    rw [emissions_expect]
    exact keepTo_nil
  case blockBody => exact keepTo_blockBody
  case blockEnd =>
    simp only [lineEnd, after, emissions_expect]
    exact keepTo_line (by decide)
  case lineEnd =>
    rw [lineEnd, emissions_expect]
    exact keepTo_nil

/-- A step emits its header lines first, and what follows carries no variable but those assigned,
the pending one included. -/
theorem keepTo_step (ht : t.isWellFormed = true)
    (hpending : ∀ use x p, s.phase = .named use x p → ∃ y : Identifier, y.text = x) :
    ∃ rest, (s.step bound t).emissions = s.lead ++ rest ∧ KeepTo s.settle.assigned rest := by
  by_cases hsettled : s.phase.isSettled = true
  · refine ⟨(s.step bound t).emissions, ?_, ?_⟩
    · rw [lead_of_isSettled hsettled]
      rfl
    · rw [settle_of_isSettled hsettled]
      exact keepTo_step_of_isSettled ht hsettled
  · cases hphase : s.phase with
    | opening =>
      refine ⟨(s.itemLine t).emissions, ?_, keepTo_itemLine⟩
      simp only [step, lead, hphase]
      rfl
    | named use x position =>
      obtain ⟨y, rfl⟩ := hpending use x position hphase
      simp only [step, hphase]
      exact keepTo_named hphase
    | _ =>
      rw [hphase] at hsettled
      exact absurd rfl hsettled

/-- What is emitted is emitted in one of the steps. -/
theorem exists_step_of_emissions {ts : List Token} {s : State} {front back : List Emission}
    {e : Emission} (h : (s.steps bound ts).emissions = front ++ e :: back) :
    ∃ before t after es s' fs gs, ts = before ++ t :: after ∧
      s.steps bound before = ⟨es, .more s'⟩ ∧ (s'.step bound t).emissions = fs ++ e :: gs ∧
      front = es ++ fs := by
  induction ts generalizing s front with
  | nil =>
    have hnil : [] = front ++ e :: back := h
    simp at hnil
  | cons t ts ih =>
    rw [steps_cons] at h
    cases hm : s.step bound t with
    | mk es p =>
      rw [hm] at h
      -- the step on `t` is the one, unless it goes on and the emission comes later
      have hhere : ∀ gs, es = front ++ e :: gs →
          ∃ before u after es s' fs gs, t :: ts = before ++ u :: after ∧
            s.steps bound before = ⟨es, .more s'⟩ ∧
            (s'.step bound u).emissions = fs ++ e :: gs ∧ front = es ++ fs := by
        intro gs hes
        exact ⟨[], t, ts, [], s, front, gs, rfl, rfl, by rw [hm]; exact hes, rfl⟩
      cases p with
      | more s₁ =>
        have hlater : ∀ front', (s₁.steps bound ts).emissions = front' ++ e :: back →
            front = es ++ front' →
            ∃ before u after es s' fs gs, t :: ts = before ++ u :: after ∧
              s.steps bound before = ⟨es, .more s'⟩ ∧
              (s'.step bound u).emissions = fs ++ e :: gs ∧ front = es ++ fs := by
          intro front' hback hfront
          obtain ⟨before, u, after, fs, s', gs, hs, rfl, hsteps, hstep, rfl⟩ := ih hback
          refine ⟨t :: before, u, after, es ++ fs, s', gs, hs, rfl, ?_, hstep, ?_⟩
          · rw [steps_cons, hm, andThen_more, hsteps, after_mk]
          · rw [hfront, List.append_assoc]
        have hsplit : es ++ (s₁.steps bound ts).emissions = front ++ e :: back := h
        rcases List.append_eq_append_iff.1 hsplit with ⟨more, hfront, hback⟩ | ⟨more, hes, hback⟩
        · exact hlater more hback hfront
        · cases more with
          | nil =>
            rw [List.append_nil] at hes
            exact hlater [] hback.symm (by rw [hes, List.append_nil])
          | cons e' more =>
            obtain ⟨rfl, -⟩ := List.cons.inj hback
            exact hhere more hes
      | finished s₁ => exact hhere back h
      | refused d => exact hhere back h

/-! ## What steps declare -/

theorem isHeader_of_mem_lead : ∀ e ∈ s.lead, e.isHeader = true := by
  have hdeclaration : ∀ x, ∀ e ∈ s.declaration x, e.isHeader = true := by
    intro x e he
    unfold declaration at he
    split at he
    next => cases he
    next =>
      rw [List.mem_singleton.1 he]
      rfl
  unfold lead
  split
  next => exact List.all_eq_true.1 rfl
  next x position hphase => exact hdeclaration x
  next x position hphase => exact hdeclaration x
  next => exact List.forall_mem_nil _

/-- A variable is declared where it is assigned for the first time. -/
theorem declaring_assigned (x : Bytes) :
    s.assigned.map declaring ++ s.declaration x = (s.assign x).assigned.map declaring := by
  unfold declaration assign
  split
  next => exact List.append_nil _
  next => rw [List.map_append]; rfl

/-- The header lines of a step complete those for all variables, the pending one included. -/
theorem declaring_lead {before : List Token} (h : Recalls before s) :
    (if before = [] then [] else preamble) ++ s.assigned.map declaring ++ s.lead =
      preamble ++ s.settle.assigned.map declaring := by
  by_cases hopening : s.phase = .opening
  · have hbefore := h.opening.1 hopening
    have hassigned := h.assigned
    rw [hbefore] at hassigned
    simp only [settle, hopening] at hassigned ⊢
    rw [if_pos hbefore, hassigned, lead, hopening]
    rfl
  · rw [if_neg (mt h.opening.2 hopening), List.append_assoc]
    refine congrArg (preamble ++ ·) ?_
    cases hphase : s.phase <;> simp only [lead, settle, hphase, List.append_nil]
    case opening => exact absurd hphase hopening
    case named use x position =>
      cases use with
      | label => exact List.append_nil _
      | jump => exact List.append_nil _
      | assignment => exact declaring_assigned x
      | input => exact declaring_assigned x

/-- A pending name is a name. -/
theorem Recalls.exists_identifier {before : List Token} (h : Recalls before s)
    (hwell : ∀ t ∈ before, t.isWellFormed = true) {use : Naming} {x : Bytes} {p : Position}
    (hphase : s.phase = .named use x p) : ∃ y : Identifier, y.text = x := by
  obtain ⟨t, hmem, hkind, rfl⟩ := h.pending use x p hphase
  obtain ⟨y, hy⟩ := Lexeme.exists_identifier (hwell t hmem) hkind
  exact ⟨y, (congrArg Lexeme.text hy).symm⟩

/-- Behind a step the header lines are those for all variables, the pending one included. -/
theorem headers_of_step {before : List Token} {es : List Emission} (h : Recalls before s)
    (hwell : ∀ u ∈ before ++ [t], u.isWellFormed = true)
    (hes : es.filter isHeader =
      (if before = [] then [] else preamble) ++ s.assigned.map declaring) :
    (es ++ (s.step bound t).emissions).filter isHeader =
      preamble ++ s.settle.assigned.map declaring := by
  obtain ⟨hbefore, ht⟩ := List.forall_mem_append.1 hwell
  obtain ⟨rest, hstep, hrest⟩ :=
    @keepTo_step bound s t (ht t (List.mem_singleton_self t))
      fun use x p => h.exists_identifier hbefore
  have hbody : rest.filter isHeader = [] := by
    rw [List.filter_eq_nil_iff]
    intro e he
    rw [(hrest e he).1]
    exact Bool.false_ne_true
  rw [hstep, List.filter_append, List.filter_append, hes, hbody,
    List.filter_eq_self.2 isHeader_of_mem_lead, List.append_nil, declaring_lead h]

theorem headers_of_steps {ts : List Token} {es : List Emission} {s : State}
    (hwell : ∀ t ∈ ts, t.isWellFormed = true) (h : start.steps bound ts = ⟨es, .more s⟩) :
    es.filter isHeader = (if ts = [] then [] else preamble) ++ s.assigned.map declaring := by
  have hinvariant := steps_invariant
    (fun before es s => (∀ t ∈ before, t.isWellFormed = true) → Recalls before s ∧
      es.filter isHeader = (if before = [] then [] else preamble) ++ s.assigned.map declaring)
    ?_ [] (fun _ => ⟨recalls_start, rfl⟩) h
  · exact (hinvariant hwell).2
  · intro before es t s fs s' hbefore hstep hwell
    obtain ⟨hrecalls, hes⟩ := hbefore (List.forall_mem_append.1 hwell).1
    have htakes := takes_of_step (congrArg Move.progress hstep)
    have hheaders := @headers_of_step bound s t before es hrecalls hwell hes
    have hassigned : s'.assigned = s.settle.assigned := congrArg Prod.fst htakes.names
    rw [hstep] at hheaders
    rw [if_neg (by simp), hassigned]
    exact ⟨hrecalls.takes htakes, hheaders⟩

end State

/-! ## Runs on a source -/

namespace Run

open Emission

/-- The run comes to the token `t` behind the tokens `before`, with the code `es` emitted, and emits
`fs` as it acts on the token. -/
structure ActsOn (bound : Option Nat) (file source : Bytes) (before : List Token) (t : Token)
    (es fs : List Emission) : Prop where
  acted : ∃ after, (scan file source).acted = before ++ t :: after
  reached : ∃ s, State.start.steps bound before = ⟨es, .more s⟩ ∧ (s.step bound t).emissions = fs

variable {bound : Option Nat} {file source : Bytes} {before : List Token} {t : Token}
  {es fs : List Emission}

theorem isWellFormed_of_mem_acted (file source : Bytes) :
    ∀ t ∈ (scan file source).acted, t.isWellFormed = true := by
  intro t ht
  exact Cursor.isWellFormed_of_mem_scan (.ofSource file source) t (Scan.mem_of_mem_acted ht)

theorem ActsOn.isWellFormed (h : ActsOn bound file source before t es fs) :
    ∀ u ∈ before ++ [t], u.isWellFormed = true := by
  obtain ⟨after, hacted⟩ := h.acted
  intro u hu
  refine isWellFormed_of_mem_acted file source u ?_
  rw [hacted, ← List.singleton_append, ← List.append_assoc]
  exact List.mem_append_left after hu

/-- What was emitted up to a token and what is emitted there starts what the run emits. -/
theorem ActsOn.emissions (h : ActsOn bound file source before t es fs) :
    es ++ fs <+: (ofSource bound file source).emissions := by
  obtain ⟨after, hacted⟩ := h.acted
  obtain ⟨s, hsteps, rfl⟩ := h.reached
  rw [(ofSource_eq_steps bound file source).1, hacted, State.steps_append, hsteps,
    Move.andThen_more, State.steps_cons]
  refine (List.prefix_append_right_inj es).2 ?_
  cases s.step bound t with
  | mk gs p =>
    cases p with
    | more s' => exact List.prefix_append _ _
    | finished s' => exact List.prefix_refl _
    | refused d => exact List.prefix_refl _

/-- What is emitted is emitted at one of the tokens that the run acts on. -/
theorem exists_actsOn {front back : List Emission} {e : Emission}
    (h : (ofSource bound file source).emissions = front ++ e :: back) :
    ∃ before t es fs gs, ActsOn bound file source before t es (fs ++ e :: gs) ∧
      front = es ++ fs := by
  rw [(ofSource_eq_steps bound file source).1] at h
  obtain ⟨before, t, after, es, s, fs, gs, hacted, hsteps, hstep, hfront⟩ :=
    State.exists_step_of_emissions h
  exact ⟨before, t, es, fs, gs, ⟨⟨after, hacted⟩, s, hsteps, hstep⟩, hfront⟩

/-- Behind a step on a token, the header lines are the two in front of every program and one for
each variable that the tokens before it give a value to. -/
theorem ActsOn.headers (h : ActsOn bound file source before t es fs) :
    (es ++ fs).filter isHeader =
      State.preamble ++ (Token.assignees before).map declaring := by
  have hwell := h.isWellFormed
  obtain ⟨s, hsteps, rfl⟩ := h.reached
  have hrecalls := State.recalls_steps hsteps
  rw [← hrecalls.assigned]
  exact State.headers_of_step hrecalls hwell
    (State.headers_of_steps (List.forall_mem_append.1 hwell).1 hsteps)

/-- The declaration of a variable that a token emits code for stands before that code. -/
theorem ActsOn.declaring_mem {gs hs : List Emission} {e : Emission} {x : Identifier}
    (h : ActsOn bound file source before t es (gs ++ e :: hs)) (hx : Carries x e) :
    declaring x.text ∈ es ++ gs := by
  have hwell := h.isWellFormed
  obtain ⟨hbefore, ht⟩ := List.forall_mem_append.1 hwell
  obtain ⟨s, hsteps, hstep⟩ := h.reached
  have hrecalls := State.recalls_steps hsteps
  obtain ⟨rest, hemissions, hrest⟩ :=
    @State.keepTo_step bound s t (ht t (List.mem_singleton_self t))
      fun use x p => hrecalls.exists_identifier hbefore
  have hbody : e.isHeader = false := by
    cases hx <;> rfl
  -- the code comes behind all header lines of the step
  rw [hstep] at hemissions
  obtain ⟨more, hgs, hmore⟩ : ∃ more, gs = s.lead ++ more ∧ rest = more ++ e :: hs := by
    rcases List.append_eq_append_iff.1 hemissions with ⟨more, hlead, hmore⟩ | ⟨more, hgs, hmore⟩
    · cases more with
      | nil => exact ⟨[], by simpa using hlead.symm, by simpa using hmore.symm⟩
      | cons e' more =>
        obtain ⟨rfl, -⟩ := List.cons.inj hmore
        have hhead := State.isHeader_of_mem_lead e (by rw [hlead]; simp)
        rw [hbody] at hhead
        cases hhead
    · exact ⟨more, hgs, hmore⟩
  have hmem : x.text ∈ s.settle.assigned := (hrest e (by rw [hmore]; simp)).2 x hx
  have hheaders := State.headers_of_steps hbefore hsteps
  have hlead := State.declaring_lead hrecalls
  rw [← hheaders] at hlead
  have hdeclared : declaring x.text ∈ es.filter isHeader ++ s.lead := by
    rw [hlead]
    exact List.mem_append_right _ (List.mem_map_of_mem hmem)
  rw [hgs]
  rcases List.mem_append.1 hdeclared with hes | hlead
  · exact List.mem_append_left _ (List.mem_filter.1 hes).1
  · exact List.mem_append_right _ (List.mem_append_left _ hlead)

/-- At every token that a run acts on, and however the run ends, the header lines emitted behind it
are the two in front of every program and one declaration for each variable that the tokens before
it give a value to, in the order in which these come first. What is emitted up to any point ends at
such a token, and its header lines are the first of those. And what carries a variable has the
declaration of the variable before it. -/
theorem declared_before_use (bound : Option Nat) (file source : Bytes) :
    (∀ before t es fs, ActsOn bound file source before t es fs →
        es ++ fs <+: (ofSource bound file source).emissions ∧
        (es ++ fs).filter isHeader =
          [.header (bytes "#include <stdio.h>"), .header (bytes "int main(void) \x7b")] ++
            (Token.assignees before).map declaring) ∧
      (∀ front, front <+: (ofSource bound file source).emissions → front ≠ [] →
        ∃ before t es fs gs, ActsOn bound file source before t es (fs ++ gs) ∧ front = es ++ fs ∧
          front.filter isHeader <+:
            [.header (bytes "#include <stdio.h>"), .header (bytes "int main(void) \x7b")] ++
              (Token.assignees before).map declaring) ∧
      ∀ front e back x, (ofSource bound file source).emissions = front ++ e :: back →
        Carries x e → declaring x.text ∈ front := by
  refine ⟨fun before t es fs h => ⟨h.emissions, h.headers⟩, ?_, ?_⟩
  · rintro front ⟨back, hemissions⟩ hne
    obtain ⟨first, e, hfront⟩ := (List.eq_nil_or_concat front).resolve_left hne
    rw [List.concat_eq_append] at hfront
    rw [hfront, List.append_assoc] at hemissions
    obtain ⟨before, t, es, fs, gs, hacts, hfirst⟩ := exists_actsOn hemissions.symm
    have hsplit : fs ++ e :: gs = (fs ++ [e]) ++ gs := by simp
    have hwhole : front = es ++ (fs ++ [e]) := by rw [hfront, hfirst, List.append_assoc]
    have hheaders := hacts.headers
    rw [hsplit] at hacts hheaders
    refine ⟨before, t, es, fs ++ [e], gs, hacts, hwhole, ?_⟩
    show _ <+: State.preamble ++ _
    rw [← hheaders, hwhole]
    exact ((List.prefix_append_right_inj es).2 (List.prefix_append _ _)).filter isHeader
  · intro front e back x hemissions hx
    obtain ⟨before, t, es, fs, gs, hacts, rfl⟩ := exists_actsOn hemissions
    exact hacts.declaring_mem hx

/-- A run that is cut short between a declaration and the assignment: the header lines are those of
all three variables, and the last piece of code has its declaration before it. -/
theorem declared_before_use_of_cut_assignment :
    let source := bytes "INPUT b\nLET a = b\nINPUT a\nLET c b"
    let opening : List Emission :=
      [.header (bytes "#include <stdio.h>"), .header (bytes "int main(void) \x7b")]
    let lines := [declaring (bytes "b"), declaring (bytes "a"), declaring (bytes "c")]
    (∃ before t es fs gs, ActsOn none [] source before t es (fs ++ gs) ∧
        (ofSource none [] source).emissions = es ++ fs ∧
        opening ++ lines <+: opening ++ (Token.assignees before).map declaring) ∧
      ∃ front, (ofSource none [] source).emissions = front ++ [.code (bytes "c = ")] ∧
        declaring (bytes "c") ∈ front := by
  intro source opening lines
  obtain ⟨-, hpoints, huses⟩ := declared_before_use none [] source
  constructor
  · obtain ⟨before, t, es, fs, gs, hacts, hfront, hheaders⟩ :=
      hpoints _ (List.prefix_refl _) (by decide +kernel)
    have hlines : (ofSource none [] source).emissions.filter isHeader = opening ++ lines := by
      decide +kernel
    rw [hlines] at hheaders
    exact ⟨before, t, es, fs, gs, hacts, hfront, hheaders⟩
  · have hemissions : (ofSource none [] source).emissions =
        (ofSource none [] source).emissions.dropLast ++ [.code (bytes "c = ")] := by
      decide +kernel
    exact ⟨_, hemissions, huses _ _ [] ⟨bytes "c", by decide +kernel⟩ hemissions .target⟩

end Run

end Teeny
