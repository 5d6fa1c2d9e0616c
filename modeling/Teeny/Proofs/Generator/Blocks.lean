import Teeny.Proofs.Generator.Steps

/-!
# Open blocks

What a step does to the open blocks is said once (`Shift`): a step that goes on reads the word that
opens a block, ends the line of that word, closes the innermost block, or stays inside the open
blocks. From that follows what the tokens read so far say about a state (`Nested`): its blocks are
as many as were opened and not closed, and where the line that opens a block has been read, the word
that opens it is the last token before empty lines.
-/

namespace Teeny

/-! ## What a step does to the open blocks -/

namespace Kind

/-- Whether a word of this kind stands behind the condition of a block. -/
def opensBlock (k : Kind) : Bool := k = .keyword .THEN || k = .keyword .REPEAT

/-- Whether a word of this kind stands at the end of a block. -/
def closesBlock (k : Kind) : Bool := k = .keyword .ENDIF || k = .keyword .ENDWHILE

@[simp] theorem opensBlock_opening (b : Block) : (keyword b.opening).opensBlock = true := by
  cases b <;> rfl

@[simp] theorem closesBlock_opening (b : Block) : (keyword b.opening).closesBlock = false := by
  cases b <;> rfl

@[simp] theorem opensBlock_closing (b : Block) : (keyword b.closing).opensBlock = false := by
  cases b <;> rfl

@[simp] theorem closesBlock_closing (b : Block) : (keyword b.closing).closesBlock = true := by
  cases b <;> rfl

/-- Whether a token of this kind neither opens nor closes a block. -/
def isInner (k : Kind) : Bool := !k.opensBlock && !k.closesBlock

theorem isInner_iff {k : Kind} :
    k.isInner = true ↔ k.opensBlock = false ∧ k.closesBlock = false := by
  simp [isInner]

end Kind

/-- Whether the line that opens a block has been read, and nothing behind it. -/
def Phase.isHeading : Phase → Bool
  | .blockLine _ | .blockBody _ => true
  | _ => false

namespace State

/-- The open blocks, together with the one whose first line has been read. -/
def around (s : State) : List Block :=
  match s.phase with
  | .blockLine b | .blockBody b => b :: s.blocks
  | _ => s.blocks

theorem around_of_not_heading {s : State} (h : s.phase.isHeading = false) :
    s.around = s.blocks := by
  unfold around
  split
  next hphase => simp [hphase, Phase.isHeading] at h
  next hphase => simp [hphase, Phase.isHeading] at h
  next => rfl

/-- What a step that goes on does to the open blocks. -/
inductive Shift (s : State) (t : Token) (s' : State) : Prop where
  /-- The word behind the condition of a block is read. -/
  | opens (b : Block) (hkind : t.kind = .keyword b.opening)
    (hphase : s.phase = .operator (.condition b true)) (hstate : s' = s.enter (.blockLine b))
  /-- The line that opens a block ends, or an empty line follows it. -/
  | line (b : Block) (hkind : t.kind = .newline)
    (hphase : s.phase = .blockLine b ∨ s.phase = .blockBody b)
    (hstate : s' = s.enter (.blockBody b))
  /-- The innermost block is closed. -/
  | closes (b : Block) (hkind : t.kind = .keyword b.closing) (hblocks : s.around = b :: s'.blocks)
    (hphase : s'.phase = .blockEnd)
  /-- A token stands inside the open blocks. -/
  | stays (hkind : t.kind.isInner = true) (hblocks : s'.blocks = s.around)
    (hphase : s'.phase.isHeading = false) (hbody : ∀ b, s.phase = .blockBody b → t.kind ≠ .newline)
    (hline : ∀ b, s.phase ≠ .blockLine b)

end State

/-- A move that, where it goes on, leaves the blocks as given behind a token that neither opens nor
closes one. -/
def Move.Keeps (blocks : List Block) (t : Token) (m : Move) : Prop :=
  ∀ s, m.progress = .more s →
    t.kind.isInner = true ∧ s.blocks = blocks ∧ s.phase.isHeading = false

namespace Move

variable {blocks : List Block} {t : Token}

@[simp] theorem keeps_after {es : List Emission} {m : Move} :
    Keeps blocks t (after es m) ↔ Keeps blocks t m := Iff.rfl

@[simp] theorem keeps_refuse (fault : Fault) : Keeps blocks t (refuse t fault) := by
  intro s h
  cases h

theorem keeps_more {es : List Emission} {s : State} (hkind : t.kind.isInner = true)
    (hblocks : s.blocks = blocks) (hphase : s.phase.isHeading = false) :
    Keeps blocks t ⟨es, .more s⟩ := by
  intro s' h
  cases h
  exact ⟨hkind, hblocks, hphase⟩

theorem keeps_expect {k : Kind} {s : State} (hkind : k.isInner = true) (hblocks : s.blocks = blocks)
    (hphase : s.phase.isHeading = false) : Keeps blocks t (expect k t s) := by
  unfold expect
  split
  next h => exact keeps_more (h ▸ hkind) hblocks hphase
  next => exact keeps_refuse _

end Move

namespace State

open Move

variable {bound : Option Nat} {s : State} {t : Token}

theorem keeps_lineEnd : (s.lineEnd t).Keeps s.blocks t := keeps_expect rfl rfl rfl

/-- An operator neither opens nor closes a block. -/
theorem keeps_operatorToken {es : List Emission} {p : Phase} (ht : ∃ o, t.kind = .operator o)
    (hphase : p.isHeading = false) : Move.Keeps s.blocks t ⟨es, .more (s.enter p)⟩ := by
  obtain ⟨o, ho⟩ := ht
  exact keeps_more (by rw [ho]; rfl) rfl hphase

theorem keeps_primary {p : Purpose} : (s.primary p t).Keeps s.blocks t := by
  unfold primary
  split
  next h => exact keeps_more (by rw [h]; rfl) rfl rfl
  next h =>
    split
    next => exact keeps_more (by rw [h]; rfl) rfl rfl
    next => exact keeps_refuse _
  next => exact keeps_refuse _

theorem keeps_operand {p : Purpose} {afterSign : Bool} :
    (s.operand p afterSign t).Keeps s.blocks t := by
  unfold operand
  split
  next h => exact keeps_after.2 (keeps_operatorToken (exists_operator_of_isAdditive h) rfl)
  next => exact keeps_primary

theorem keeps_print {newline : Bool} : (s.print newline t).Keeps s.blocks t := by
  unfold print
  dsimp only
  split
  next h => exact keeps_more (by rw [h]; rfl) rfl rfl
  next => exact keeps_after.2 keeps_operand

theorem keeps_name {use : Naming} : (s.name use t).Keeps s.blocks t := by
  unfold name
  split
  next h =>
    split
    next => exact keeps_refuse _
    next => exact keeps_more (by rw [h]; rfl) rfl rfl
  next => exact keeps_refuse _

theorem keeps_named {x : Bytes} {position : Position} {use : Naming} :
    (s.named x position t use).Keeps s.blocks t := by
  cases use with
  | label => exact keeps_after.2 keeps_lineEnd
  | jump => exact keeps_after.2 keeps_lineEnd
  | assignment => exact keeps_after.2 (keeps_expect rfl (blocks_assign s x) rfl)
  | input => exact keeps_after.2 (keeps_expect rfl (blocks_assign s x) rfl)

theorem keeps_statement : (s.statement t).Keeps s.blocks t := by
  unfold statement
  split
  case h_9 => exact keeps_refuse _
  all_goals
    rename_i h
    exact keeps_more (by rw [h]; rfl) rfl rfl

/-- Behind an operand only the word that opens a block changes what is open. -/
theorem shift_operator {p : Purpose} {s' : State} (hphase : s.phase = .operator p)
    (h : (s.operator p t).progress = .more s') : s.Shift t s' := by
  have hkeeps : ∀ m : Move, m.progress = .more s' → m.Keeps s.blocks t → s.Shift t s' := by
    intro m hp hm
    obtain ⟨hkind, hblocks, hheading⟩ := hm s' hp
    refine .stays hkind ?_ hheading (by simp [hphase]) (by simp [hphase])
    rw [hblocks, around, hphase]
  unfold operator at h
  split at h
  next hadditive =>
    exact hkeeps _ h (keeps_operatorToken (exists_operator_of_isAdditive hadditive) rfl)
  next =>
    split at h
    next hmult =>
      exact hkeeps _ h (keeps_operatorToken (exists_operator_of_isMultiplicative hmult) rfl)
    next =>
      cases p with
      | print => exact hkeeps _ h (keeps_after.2 keeps_lineEnd)
      | assignment => exact hkeeps _ h (keeps_after.2 keeps_lineEnd)
      | condition b compared =>
        simp only [expressionEnd] at h
        split at h
        next hcomparison =>
          exact hkeeps _ h (keeps_operatorToken (exists_operator_of_isComparison hcomparison) rfl)
        next =>
          cases compared with
          | false => cases h
          | true =>
            unfold expect at h
            rw [if_pos rfl] at h
            split at h
            next hkind =>
              cases h
              exact .opens b hkind hphase rfl
            next => cases h

/-- A statement starts inside the open blocks, or the innermost of them is closed. -/
theorem item_more {s' : State} (h : (s.item t).progress = .more s') :
    (∃ b, t.kind = .keyword b.closing ∧ s.blocks = b :: s'.blocks ∧ s'.phase = .blockEnd) ∨
      t.kind.isInner = true ∧ s'.blocks = s.blocks ∧ s'.phase.isHeading = false := by
  unfold item at h
  split at h
  next =>
    split at h
    next => cases h
    next => exact Or.inr (keeps_statement s' h)
  next b outer hblocks =>
    split at h
    next hkind =>
      cases h
      exact Or.inl ⟨b, hkind, hblocks, rfl⟩
    next =>
      split at h
      next => cases h
      next => exact Or.inr (keeps_statement s' h)

theorem shift_itemLine {s' : State} (hphase : s.phase = .opening ∨ s.phase = .statement)
    (h : (s.itemLine t).progress = .more s') : s.Shift t s' := by
  have haround : s.around = s.blocks := by
    rcases hphase with hphase | hphase <;> rw [around, hphase]
  have hbody : ∀ b, s.phase ≠ .blockBody b := by
    rcases hphase with hphase | hphase <;> simp [hphase]
  have hline : ∀ b, s.phase ≠ .blockLine b := by
    rcases hphase with hphase | hphase <;> simp [hphase]
  unfold itemLine at h
  split at h
  next hkind =>
    cases h
    exact .stays (by rw [hkind]; rfl) haround.symm rfl (fun b hb => absurd hb (hbody b)) hline
  next =>
    rcases item_more h with ⟨b, hkind, hblocks, hend⟩ | ⟨hkind, hblocks, hheading⟩
    · exact .closes b hkind (haround.trans hblocks) hend
    · exact .stays hkind (hblocks.trans haround.symm) hheading (fun b hb => absurd hb (hbody b))
        hline

theorem shift_blockBody {b : Block} {s' : State} (hphase : s.phase = .blockBody b)
    (h : (s.blockBody bound b t).progress = .more s') : s.Shift t s' := by
  have haround : s.around = b :: s.blocks := by rw [around, hphase]
  by_cases ht : t.kind = .newline
  · rw [blockBody_newline ht] at h
    cases h
    exact .line b ht (Or.inr hphase) (enter_of_phase hphase).symm
  · cases hallows : Depth.allows bound (s.blocks.length + 1) with
    | false =>
      obtain ⟨n, -, hm⟩ := blockBody_of_not_allows b ht hallows
      rw [hm] at h
      cases h
    | true =>
      rw [blockBody_of_allows ht hallows, progress_after] at h
      rcases item_more h with ⟨b', hkind, hblocks, hend⟩ | ⟨hkind, hblocks, hheading⟩
      · exact .closes b' hkind (haround.trans hblocks) hend
      · exact .stays hkind (hblocks.trans haround.symm) hheading (fun _ _ => ht) (by simp [hphase])

/-- A step that goes on opens a block, ends the line that opens one, closes the innermost one, or
stays inside the open blocks. -/
theorem shift_of_step {s' : State} (h : (s.step bound t).progress = .more s') : s.Shift t s' := by
  have hkeeps : ∀ m : Move, m.progress = .more s' → s.phase.isHeading = false →
      m.Keeps s.blocks t → s.Shift t s' := by
    intro m hp hs hm
    obtain ⟨hkind, hblocks, hheading⟩ := hm s' hp
    refine .stays hkind (hblocks.trans (around_of_not_heading hs).symm) hheading ?_ ?_
    · intro b hb
      simp [hb, Phase.isHeading] at hs
    · intro b hb
      simp [hb, Phase.isHeading] at hs
  cases hphase : s.phase <;> simp only [step, hphase, progress_after] at h
  case opening => exact shift_itemLine (Or.inl hphase) h
  case statement => exact shift_itemLine (Or.inr hphase) h
  case print newline => exact hkeeps _ h (by rw [hphase]; rfl) keeps_print
  case condition b => exact hkeeps _ h (by rw [hphase]; rfl) keeps_operand
  case name use => exact hkeeps _ h (by rw [hphase]; rfl) keeps_name
  case named use x position => exact hkeeps _ h (by rw [hphase]; rfl) keeps_named
  case operand p afterSign => exact hkeeps _ h (by rw [hphase]; rfl) keeps_operand
  case signed p => exact hkeeps _ h (by rw [hphase]; rfl) keeps_primary
  case operator p => exact shift_operator hphase h
  case blockLine b =>
    unfold expect at h
    split at h
    next hkind =>
      cases h
      exact .line b hkind (Or.inl hphase) rfl
    next => cases h
  case blockBody b => exact shift_blockBody hphase h
  case blockEnd => exact hkeeps _ h (by rw [hphase]; rfl) keeps_lineEnd
  case lineEnd => exact hkeeps _ h (by rw [hphase]; rfl) keeps_lineEnd

/-! ## The words behind the open blocks -/

/-- What the tokens read so far say about the open blocks: as many as were opened and not closed,
and a block whose line has been read was opened by the last word before the empty lines. -/
structure Nested (before : List Token) (s : State) : Prop where
  counted : s.around.length + before.countP (·.kind.closesBlock) =
    before.countP (·.kind.opensBlock)
  line : ∀ b, s.phase = .blockLine b →
    ∃ front word, before = front ++ [word] ∧ word.kind = .keyword b.opening
  body : ∀ b, s.phase = .blockBody b →
    ∃ front word lines, before = front ++ word :: lines ∧ word.kind = .keyword b.opening ∧
      ∀ l ∈ lines, l.kind = .newline

theorem nested_start : Nested [] start := by
  refine ⟨rfl, ?_, ?_⟩
  · intro b hb
    cases hb
  · intro b hb
    cases hb

theorem Nested.shift {before : List Token} {s' : State} (h : Nested before s)
    (hshift : s.Shift t s') : Nested (before ++ [t]) s' := by
  have hcounted := h.counted
  cases hshift with
  | opens b hkind hphase hstate =>
    subst hstate
    refine ⟨?_, fun b' hb' => ?_, fun b' hb' => by cases hb'⟩
    · have haround : s.around = s.blocks := by rw [around, hphase]
      simp only [List.countP_append, List.countP_singleton, hkind, around, phase_enter,
        Kind.opensBlock_opening, Kind.closesBlock_opening, List.length_cons]
      rw [haround] at hcounted
      simp only [enter, if_true, Bool.false_eq_true, if_false]
      omega
    · cases hb'
      exact ⟨before, t, rfl, hkind⟩
  | line b hkind hphase hstate =>
    subst hstate
    have haround : s.around = b :: s.blocks := by
      rcases hphase with hphase | hphase <;> rw [around, hphase]
    refine ⟨?_, fun b' hb' => (by cases hb'), fun b' hb' => ?_⟩
    · rw [haround] at hcounted
      simpa [List.countP_append, hkind, around, enter, Kind.opensBlock, Kind.closesBlock]
        using hcounted
    · cases hb'
      rcases hphase with hphase | hphase
      · obtain ⟨front, word, rfl, hword⟩ := h.line b hphase
        exact ⟨front, word, [t], by simp, hword, List.forall_mem_singleton.2 hkind⟩
      · obtain ⟨front, word, lines, rfl, hword, hlines⟩ := h.body b hphase
        exact ⟨front, word, lines ++ [t], by simp, hword,
          List.forall_mem_append.2 ⟨hlines, List.forall_mem_singleton.2 hkind⟩⟩
  | closes b hkind hblocks hphase =>
    refine ⟨?_, fun b' hb' => ?_, fun b' hb' => ?_⟩
    · have haround : s'.around = s'.blocks := by rw [around, hphase]
      rw [hblocks] at hcounted
      simp only [List.countP_append, List.countP_singleton, hkind, haround,
        Kind.opensBlock_closing, Kind.closesBlock_closing, if_true, Bool.false_eq_true, if_false]
      simp only [List.length_cons] at hcounted
      omega
    · rw [hphase] at hb'
      cases hb'
    · rw [hphase] at hb'
      cases hb'
  | stays hkind hblocks hphase hbody hline =>
    obtain ⟨hopens, hcloses⟩ := Kind.isInner_iff.1 hkind
    refine ⟨?_, fun b' hb' => ?_, fun b' hb' => ?_⟩
    · rw [around_of_not_heading hphase, hblocks]
      simpa [List.countP_append, hopens, hcloses] using hcounted
    · rw [hb'] at hphase
      cases hphase
    · rw [hb'] at hphase
      cases hphase

theorem Nested.steps {before ts : List Token} {s s' : State} {es : List Emission}
    (h : Nested before s) (hsteps : s.steps bound ts = ⟨es, .more s'⟩) :
    Nested (before ++ ts) s' := by
  refine steps_invariant (fun before _ s => Nested before s) ?_ [] h hsteps
  intro before es t s fs s' h hstep
  exact h.shift (shift_of_step (congrArg Move.progress hstep))

end State

end Teeny
