import Teeny.Proofs.Grammar.Layout
import Teeny.Proofs.Grammar.Translation
import Teeny.Proofs.Token.Tokenisation

/-!
# One program behind another

Two sources with a newline between them are read as the lexemes of the first, without the end of the
input, and then those of the second (`scan_newline_append`). Nothing of the first program is left
open there, so the second one runs as it would alone, but for what is known: labels of the first may
not be declared again, and its variables need no further declaration. Names only come to be known,
so nothing that was in scope alone falls out of it (`Scoped.append`), and of the code of the second
program only declarations are left out (`Statements.emissions_filter`).
-/

namespace Teeny

/-! ## The seam between two sources -/

/-- Two sources with a newline between them have the lexemes of the first, without the end of the
input, and then those of the second. -/
theorem scan_newline_append {file file' source source' : Bytes} (name : Bytes)
    (hfault : (scan file source).fault = none) (hfault' : (scan file' source').fault = none) :
    (scan name (source ++ Bytes.newline :: source')).fault = none ∧
      (scan name (source ++ Bytes.newline :: source')).tokens.map Token.toLexeme =
        ((scan file source).tokens.map Token.toLexeme).dropLast ++
          (scan file' source').tokens.map Token.toLexeme := by
  obtain ⟨ps, hps⟩ := Cursor.exists_tokenisation rfl (endsLine_line source) hfault
  obtain ⟨qs, hqs⟩ := Cursor.exists_tokenisation rfl (endsLine_line source') hfault'
  have hseam : Bytes.line source ++ Bytes.line source' =
      Bytes.line (source ++ Bytes.newline :: source') := by
    simp [Bytes.line]
  have hboth := hps.append (endsLine_line source) hqs
  rw [hseam] at hboth
  obtain ⟨hnone, hlexemes⟩ := hboth.scan (c := .ofSource name (source ++ Bytes.newline :: source'))
    rfl
  refine ⟨hnone, ?_⟩
  have hfirst : (scan file source).tokens.map Token.toLexeme = ps.map Piece.lexeme :=
    (hps.scan rfl).2
  have hsecond : (scan file' source').tokens.map Token.toLexeme = qs.map Piece.lexeme :=
    (hqs.scan rfl).2
  rw [hfirst, hsecond, ← List.map_dropLast, ← List.map_append]
  exact hlexemes

/-! ## Labels -/

/-- The names of the labels that lexemes declare: what stands behind `LABEL`. -/
def Lexeme.labels : List Lexeme → List Bytes
  | [] => []
  | l :: ls =>
    (if l.kind = .keyword .LABEL then ls.head?.toList.map Lexeme.text else []) ++ labels ls

namespace Lexeme

theorem labels_cons_of_ne {l : Lexeme} (ls : List Lexeme) (hl : l.kind ≠ .keyword .LABEL) :
    labels (l :: ls) = labels ls := by
  rw [labels, if_neg hl, List.nil_append]

theorem labels_append_of_ne {ls : List Lexeme} (rest : List Lexeme)
    (hls : ∀ l ∈ ls, l.kind ≠ .keyword .LABEL) : labels (ls ++ rest) = labels rest := by
  induction ls with
  | nil => rfl
  | cons l ls ih =>
    obtain ⟨hl, hls⟩ := List.forall_mem_cons.1 hls
    rw [List.cons_append, labels_cons_of_ne _ hl, ih hls]

theorem labels_lineEnd (blank : Nat) (rest : List Lexeme) :
    labels (lineEnd blank ++ rest) = labels rest :=
  labels_append_of_ne rest fun l hl => by simp [List.eq_of_mem_replicate hl, newline]

end Lexeme

theorem Primary.kind_ne_keyword (k : Keyword) (x : Primary) : x.lexeme.kind ≠ .keyword k := by
  cases x <;> simp [lexeme]

theorem Expression.kind_ne_keyword (k : Keyword) (e : Expression) :
    ∀ l ∈ e.lexemes, l.kind ≠ .keyword k :=
  e.forall_mem_lexemes (Primary.kind_ne_keyword k) (by simp)

theorem Condition.kind_ne_keyword (k : Keyword) (c : Condition) :
    ∀ l ∈ c.lexemes, l.kind ≠ .keyword k :=
  c.forall_mem_lexemes (Primary.kind_ne_keyword k) (by simp)

/-- Where only uses are mentioned, nothing else is. -/
theorem Mention.notMem_of_uses {ms : List Mention} (h : ∀ m ∈ ms, ∃ x, m = .use x) {m : Mention}
    (hm : ∀ x, m ≠ .use x) : m ∉ ms := by
  intro hmem
  obtain ⟨x, hx⟩ := h m hmem
  exact hm x hx

theorem Simple.mem_labels {first : Simple} {x : Bytes} {rest : List Lexeme} :
    x ∈ Lexeme.labels (first.lexemes ++ rest) ↔
      .label x ∈ first.mentions ∨ x ∈ Lexeme.labels rest := by
  have hvalue : ∀ e : Expression, Mention.label x ∉ e.mentions := fun e =>
    Mention.notMem_of_uses Expression.use_of_mem_mentions (by simp)
  cases first with
  | printText newline text => cases newline <;> simp [lexemes, mentions, Lexeme.labels, printWord]
  | printValue newline value =>
    have hword : printWord newline ≠ .LABEL := by cases newline <;> simp [printWord]
    rw [lexemes, List.cons_append, Lexeme.labels_cons_of_ne _ (by simpa using hword),
      Lexeme.labels_append_of_ne rest (value.kind_ne_keyword .LABEL)]
    simp [mentions, hvalue]
  | label y => simp [lexemes, mentions, Lexeme.labels, Lexeme.ofIdentifier]
  | jump y => simp [lexemes, mentions, Lexeme.labels]
  | assignment y value =>
    have hhead : ∀ ls, Lexeme.labels (Lexeme.ofKeyword .LET :: Lexeme.ofIdentifier y ::
        Lexeme.ofOperator .assign :: ls) = Lexeme.labels ls := fun ls => by simp [Lexeme.labels]
    rw [lexemes, List.cons_append, List.cons_append, List.cons_append, hhead,
      Lexeme.labels_append_of_ne rest (value.kind_ne_keyword .LABEL)]
    simp [mentions, hvalue]
  | input y => simp [lexemes, mentions, Lexeme.labels]

theorem Statements.mem_labels {st : Statements} {x : Bytes} {rest : List Lexeme} :
    x ∈ Lexeme.labels (st.lexemes ++ rest) ↔
      .label x ∈ st.mentions ∨ x ∈ Lexeme.labels rest := by
  induction st generalizing rest with
  | nil => simp [lexemes, mentions]
  | simple first blank more ih =>
    simp only [lexemes, mentions, List.append_assoc, List.mem_append]
    rw [Simple.mem_labels, Lexeme.labels_lineEnd, ih, or_assoc]
  | block b c blank body blankBehind more ihbody ihmore =>
    have hcondition : Mention.label x ∉ c.mentions :=
      Mention.notMem_of_uses Condition.use_of_mem_mentions (by simp)
    have hfirst : b.firstWord ≠ .LABEL := by cases b <;> simp [Block.firstWord]
    have hthen : b.thenWord ≠ .LABEL := by cases b <;> simp [Block.thenWord]
    have hlast : b.lastWord ≠ .LABEL := by cases b <;> simp [Block.lastWord]
    simp only [lexemes, mentions, List.append_assoc, List.cons_append, List.mem_append]
    rw [Lexeme.labels_cons_of_ne _ (by simpa using hfirst),
      Lexeme.labels_append_of_ne _ (c.kind_ne_keyword .LABEL),
      Lexeme.labels_cons_of_ne _ (by simpa using hthen), Lexeme.labels_lineEnd, ihbody,
      Lexeme.labels_cons_of_ne _ (by simpa using hlast), Lexeme.labels_lineEnd, ihmore]
    simp [hcondition, or_assoc]

/-- The labels that the lexemes of a program declare are those it mentions as declared. -/
theorem Program.mem_labels {p : Program} {x : Bytes} :
    x ∈ Lexeme.labels p.lexemes ↔ .label x ∈ p.body.mentions := by
  have hblank : ∀ l ∈ List.replicate p.blank Lexeme.newline, l.kind ≠ .keyword .LABEL := by
    intro l hl
    simp [List.eq_of_mem_replicate hl, Lexeme.newline]
  rw [lexemes, List.append_assoc, Lexeme.labels_append_of_ne _ hblank, Statements.mem_labels]
  simp [Lexeme.labels, Lexeme.eof]

/-- Two programs, each in scope, are in scope one behind the other if they share no label. -/
theorem Scoped.append {ms ns : List Mention} (hms : Scoped ms) (hns : Scoped ns)
    (hlabels : ∀ x, .label x ∈ ms → .label x ∉ ns) : Scoped (ms ++ ns) := by
  -- a mention stands in the first program, or in the second behind all of the first
  have hsplit : ∀ before m after, ms ++ ns = before ++ m :: after →
      (∃ more, ms = before ++ m :: more) ∨
        ∃ front, before = ms ++ front ∧ ns = front ++ m :: after := by
    intro before m after h
    rcases List.append_eq_append_iff.1 h with ⟨front, hbefore, hns⟩ | ⟨more, hms, hafter⟩
    · exact Or.inr ⟨front, hbefore, hns⟩
    · cases more with
      | nil => exact Or.inr ⟨[], by simpa using hms.symm, by simpa using hafter.symm⟩
      | cons n more =>
        injection hafter with hm
        exact Or.inl ⟨more, by rw [hms, hm]⟩
  refine ⟨?_, ?_, ?_⟩
  · intro before x after h
    rcases hsplit before (.use x) after h with ⟨more, hmore⟩ | ⟨front, rfl, hfront⟩
    · exact hms.assigned before x more hmore
    · exact List.mem_append_right ms (hns.assigned front x after hfront)
  · intro before x after h
    rcases hsplit before (.label x) after h with ⟨more, hmore⟩ | ⟨front, rfl, hfront⟩
    · exact hms.declaredOnce before x more hmore
    · intro hx
      rcases List.mem_append.1 hx with hx | hx
      · exact hlabels x hx (by simp [hfront])
      · exact hns.declaredOnce front x after hfront hx
  · intro x hx
    rcases List.mem_append.1 hx with hx | hx
    · exact List.mem_append_left ns (hms.reached x hx)
    · exact List.mem_append_right ms (hns.reached x hx)

/-! ## Declarations -/

namespace Emission

/-- The line of the header that declares a variable. -/
def declaring (x : Bytes) : Emission := .header (bytes "float " ++ x ++ bytes ";")

/-- Whether an emission is a line of the header that declares a variable. -/
def isDeclaration : Emission → Bool
  | .header text => (bytes "float ").isPrefixOf text
  | .code _ | .line _ => false

@[simp] theorem isDeclaration_declaring (x : Bytes) : (declaring x).isDeclaration = true := by
  simp [declaring, isDeclaration]

@[simp] theorem declaring_inj {x y : Bytes} : declaring x = declaring y ↔ x = y := by
  simp [declaring]

theorem declaring_ne (x : Bytes) {e : Emission} (h : e.isDeclaration = false) :
    declaring x ≠ e := by
  rintro rfl
  simp at h

@[simp] theorem declaring_ne_code (x text : Bytes) : declaring x ≠ .code text :=
  declaring_ne x rfl

@[simp] theorem declaring_ne_line (x text : Bytes) : declaring x ≠ .line text :=
  declaring_ne x rfl

/-- What adds nothing to the header declares nothing. -/
theorem isDeclaration_of_headerOf {es : List Emission} (h : headerOf es = []) :
    ∀ e ∈ es, e.isDeclaration = false := by
  intro e he
  cases e with
  | header text =>
    have htext := List.flatMap_eq_nil_iff.1 h _ he
    simp [headerText, Bytes.line] at htext
  | code text => rfl
  | line text => rfl

theorem declaring_notMem {es : List Emission} (h : headerOf es = []) (x : Bytes) :
    declaring x ∉ es :=
  fun hx => declaring_ne x (isDeclaration_of_headerOf h _ hx) rfl

/-- A choice of emissions that leaves out nothing but the declarations of some variables. -/
structure LeavesOut (keep : Emission → Bool) (declared : List Bytes) : Prop where
  body : ∀ e : Emission, e.isDeclaration = false → keep e = true
  declaring : ∀ x, keep (declaring x) = true ↔ x ∉ declared

theorem LeavesOut.filter_eq_self {keep : Emission → Bool} {declared : List Bytes}
    (h : LeavesOut keep declared) {es : List Emission} (hes : headerOf es = []) :
    es.filter keep = es :=
  List.filter_eq_self.2 fun e he => h.body e (isDeclaration_of_headerOf hes e he)

end Emission

open Emission

theorem Mention.mem_learnAll {known : List Bytes} {ms : List Mention} {x : Bytes} :
    x ∈ learnAll known ms ↔ x ∈ known ∨ .assign x ∈ ms := by
  have hassigned : x ∈ (({ State.start with assigned := known } : State).mentionAll
      (.start []) ms).assigned ↔ x ∈ known ∨ .assign x ∈ ms :=
    State.mem_mentionAll State.assigned fun _ _ _ => State.mem_assigned_mention
  rwa [State.assigned_mentionAll] at hassigned

namespace Simple

theorem declaring_mem_declaration {known : List Bytes} {x y : Bytes} :
    declaring x ∈ declaration known y ↔ x ∉ known ∧ x = y := by
  unfold declaration
  split
  next hy =>
    have hmem : y ∈ known := List.contains_iff_mem.1 hy
    simp only [List.not_mem_nil, false_iff, not_and]
    rintro hx rfl
    exact hx hmem
  next hy =>
    have hmem : y ∉ known := fun h => hy (List.contains_iff_mem.2 h)
    rw [List.mem_singleton]
    refine declaring_inj.trans ⟨?_, fun h => h.2⟩
    rintro rfl
    exact ⟨hmem, rfl⟩

/-- A statement declares the variable that it assigns, unless it is known. -/
theorem declaring_mem {known : List Bytes} {first : Simple} {x : Bytes} :
    declaring x ∈ first.emissions known ↔ x ∉ known ∧ .assign x ∈ first.mentions := by
  have huse : ∀ e : Expression, Mention.assign x ∉ e.mentions := fun e =>
    Mention.notMem_of_uses Expression.use_of_mem_mentions (by simp)
  have hvalue : ∀ e : Expression, declaring x ∉ e.emissions false := fun e =>
    declaring_notMem (e.headerOf_emissions false) x
  cases first <;>
    simp [emissions, mentions, declaring_mem_declaration, huse, hvalue]

theorem declaration_filter {keep : Emission → Bool} {declared known known' : List Bytes}
    (hkeep : LeavesOut keep declared) (hknown : ∀ x, x ∈ known' ↔ x ∈ declared ∨ x ∈ known)
    (x : Bytes) : (declaration known x).filter keep = declaration known' x := by
  have hnew : ∀ l : List Bytes, x ∉ l → declaration l x = [declaring x] := by
    intro l hx
    simp [declaration, hx, declaring]
  have hnone : ∀ l : List Bytes, x ∈ l → declaration l x = [] := by
    intro l hx
    simp [declaration, hx]
  by_cases hx : x ∈ known
  · rw [hnone _ hx, hnone _ ((hknown x).2 (Or.inr hx))]
    rfl
  · rw [hnew _ hx]
    by_cases hd : x ∈ declared
    · have hdropped : keep (declaring x) = false := by
        simpa [hd] using hkeep.declaring x
      rw [hnone _ ((hknown x).2 (Or.inl hd)), List.filter_cons_of_neg (by simp [hdropped])]
      rfl
    · rw [hnew _ fun h => ((hknown x).1 h).elim hd hx,
        List.filter_cons_of_pos ((hkeep.declaring x).2 hd)]
      rfl

theorem emissions_filter {keep : Emission → Bool} {declared known known' : List Bytes}
    (hkeep : LeavesOut keep declared) (hknown : ∀ x, x ∈ known' ↔ x ∈ declared ∨ x ∈ known)
    (first : Simple) : (first.emissions known).filter keep = first.emissions known' := by
  cases first with
  | printText newline text => exact hkeep.filter_eq_self rfl
  | printValue newline value =>
    exact hkeep.filter_eq_self (by simp [emissions, headerText, Expression.headerOf_emissions])
  | label x => exact hkeep.filter_eq_self rfl
  | jump x => exact hkeep.filter_eq_self rfl
  | assignment x value =>
    simp only [emissions, List.append_assoc]
    rw [List.filter_append, declaration_filter hkeep hknown, hkeep.filter_eq_self]
    simp [headerText, Expression.headerOf_emissions]
  | input x =>
    rw [emissions, List.filter_append, declaration_filter hkeep hknown, hkeep.filter_eq_self rfl]
    rfl

end Simple

namespace Statements

/-- Statements declare the variables that they assign and that are not known. -/
theorem declaring_mem {known : List Bytes} {st : Statements} {x : Bytes} :
    declaring x ∈ st.emissions known ↔ x ∉ known ∧ .assign x ∈ st.mentions := by
  induction st generalizing known with
  | nil => simp [emissions, mentions]
  | simple first blank rest ih =>
    rw [emissions, mentions, List.mem_append, List.mem_append, Simple.declaring_mem, ih,
      Mention.mem_learnAll]
    grind
  | block b c blank body blankBehind rest ihbody ihrest =>
    have hcondition : declaring x ∉ c.emissions := declaring_notMem c.headerOf_emissions x
    have huse : Mention.assign x ∉ c.mentions :=
      Mention.notMem_of_uses Condition.use_of_mem_mentions (by simp)
    simp only [emissions, mentions, List.mem_append, List.mem_cons, declaring_ne_code,
      declaring_ne_line, hcondition, huse, ihbody, ihrest, Mention.mem_learnAll]
    grind

/-- Where more variables are known, the code of statements lacks their declarations and is the same
otherwise. -/
theorem emissions_filter {keep : Emission → Bool} {declared known known' : List Bytes}
    (hkeep : LeavesOut keep declared) (hknown : ∀ x, x ∈ known' ↔ x ∈ declared ∨ x ∈ known)
    (st : Statements) : (st.emissions known).filter keep = st.emissions known' := by
  -- what statements teach, they teach whatever was known
  have hlearn : ∀ {known known' : List Bytes}, (∀ x, x ∈ known' ↔ x ∈ declared ∨ x ∈ known) →
      ∀ ms x, x ∈ Mention.learnAll known' ms ↔ x ∈ declared ∨ x ∈ Mention.learnAll known ms := by
    intro known known' h ms x
    rw [Mention.mem_learnAll, Mention.mem_learnAll, h, or_assoc]
  induction st generalizing known known' with
  | nil => rfl
  | simple first blank rest ih =>
    rw [emissions, List.filter_append, Simple.emissions_filter hkeep hknown,
      ih (hlearn hknown first.mentions)]
    rfl
  | block b c blank body blankBehind rest ihbody ihrest =>
    have hcode : ∀ text, keep (.code text) = true := fun text => hkeep.body _ rfl
    have hline : ∀ text, keep (.line text) = true := fun text => hkeep.body _ rfl
    simp only [emissions, List.filter_append, List.filter_cons, hcode, hline, if_true,
      hkeep.filter_eq_self c.headerOf_emissions, ihbody hknown,
      ihrest (hlearn hknown body.mentions)]

end Statements

/-! ## The run on both -/

/-- What comes of two programs, the second behind the first: the second runs in the state that the
first leaves. -/
theorem State.outcome_append {bound : Option Nat} (place : Position) {p q : Program}
    (hscoped : Scoped (p.body.mentions ++ q.body.mentions)) (hp : p.body.fits bound 0 = true)
    (hq : q.body.fits bound 0 = true) :
    (start.follow bound place (p.lexemes.dropLast ++ q.lexemes)).outcome =
      (preamble ++ (p.body.emissions [] ++
        (q.body.emissions (Mention.learnAll [] p.body.mentions) ++ epilogue)), none) := by
  obtain ⟨hadmits, hverdict⟩ := (scoped_iff place).1 hscoped
  rw [admitsAll_append, Bool.and_eq_true_iff] at hadmits
  rw [mentionAll_append] at hverdict
  -- what the first program leaves: its names, and no open block
  let s := (start.mentionAll place p.body.mentions).enter .statement
  have hblocks : s.blocks = [] := blocks_mentionAll ..
  have hassigned : s.assigned = Mention.learnAll [] p.body.mentions := assigned_mentionAll ..
  have hadmits' : s.admitsAll place q.body.mentions = true :=
    (admitsAll_with _ .statement _ _).trans hadmits.2
  have hfits : q.body.fits bound s.blocks.length = true := by
    rw [hblocks]
    exact hq
  have hboth := (yields_append (yields_program p) (yields_append
    (.of_eq (@follow_blank bound place s rfl q.blank)) (yields_statements rfl q.body))).goes
      ⟨⟨hadmits.1, hp⟩, trivial, hadmits', hfits⟩
  have hend : (s.mentionAll place q.body.mentions).step bound ⟨.eof, place⟩ =
      ⟨epilogue, .finished (s.mentionAll place q.body.mentions)⟩ :=
    step_eof_of_statement (phase_mentionAll ..) ((blocks_mentionAll ..).trans hblocks)
  have hlexemes : p.lexemes.dropLast ++ q.lexemes =
      (List.replicate p.blank .newline ++ p.body.lexemes) ++
        (List.replicate q.blank .newline ++ q.body.lexemes) ++ [.eof] := by
    simp [Program.lexemes]
  have hne : p.lexemes.dropLast ++ q.lexemes ≠ [] := by
    rw [hlexemes]
    simp
  rw [outcome_opening hne, hlexemes, follow_append, hboth, Move.andThen_more, follow_singleton,
    hend, hassigned]
  refine Prod.ext ?_ ?_
  · simp [Move.outcome, Move.after]
  · show (s.mentionAll place q.body.mentions).verdict = none
    rw [mentionAll_enter, verdict_enter]
    exact hverdict

/-- Two sources that are accepted and share no label are accepted with a newline between them. The
code is that of the first, but for the lines behind it, and then that of the second, but for the
lines in front of it and for declarations that the first has as well. -/
theorem Run.programs_compose (bound : Option Nat) (file file' name source source' : Bytes)
    (haccepted : (ofSource bound file source).failure = none)
    (haccepted' : (ofSource bound file' source').failure = none)
    (hlabels : ∀ x ∈ Lexeme.labels ((scan file source).tokens.map Token.toLexeme),
      x ∉ Lexeme.labels ((scan file' source').tokens.map Token.toLexeme)) :
    (ofSource bound name (source ++ Bytes.newline :: source')).failure = none ∧
      ∃ front back,
        (ofSource bound file source).emissions =
          front ++ [.line (bytes "return 0;"), .line (bytes "\x7d")] ∧
        (ofSource bound file' source').emissions =
          [.header (bytes "#include <stdio.h>"), .header (bytes "int main(void) \x7b")] ++ back ∧
        (ofSource bound name (source ++ Bytes.newline :: source')).emissions =
          front ++ back.filter fun e =>
            !(e.isDeclaration && (ofSource bound file source).emissions.contains e) := by
  have hfault := (failure_eq_none_iff.1 haccepted).1
  have hfault' := (failure_eq_none_iff.1 haccepted').1
  obtain ⟨p, hp⟩ := exists_program haccepted
  obtain ⟨q, hq⟩ := exists_program haccepted'
  obtain ⟨hscoped, hfits⟩ := (failure_eq_none_iff_scoped hfault hp).1 haccepted
  obtain ⟨hscoped', hfits'⟩ := (failure_eq_none_iff_scoped hfault' hq).1 haccepted'
  have hes : (ofSource bound file source).emissions =
      State.preamble ++ p.body.emissions [] ++ State.epilogue := emissions_of_program haccepted hp
  have hes' : (ofSource bound file' source').emissions =
      State.preamble ++ q.body.emissions [] ++ State.epilogue :=
    emissions_of_program haccepted' hq
  obtain ⟨hread, hlexemes⟩ := scan_newline_append name hfault hfault'
  have hboth : Scoped (p.body.mentions ++ q.body.mentions) := by
    rw [← hp, ← hq] at hlabels
    exact hscoped.append hscoped' fun x hx hx' =>
      hlabels x (Program.mem_labels.2 hx) (Program.mem_labels.2 hx')
  have houtcome := @outcome_eq_follow bound _ _ hread (.start [])
  rw [hlexemes, ← hp, ← hq, State.outcome_append _ hboth hfits hfits'] at houtcome
  obtain ⟨hemitted, hfailure⟩ := Prod.mk.inj houtcome
  refine ⟨Option.map_eq_none_iff.1 hfailure, State.preamble ++ p.body.emissions [],
    q.body.emissions [] ++ State.epilogue, hes, hes'.trans (List.append_assoc ..), ?_⟩
  have hkeep : LeavesOut
      (fun e => !(e.isDeclaration && (ofSource bound file source).emissions.contains e))
      (Mention.learnAll [] p.body.mentions) := by
    refine ⟨fun e he => by simp [he], fun x => ?_⟩
    have hdeclared : declaring x ∈ (ofSource bound file source).emissions ↔
        x ∈ Mention.learnAll [] p.body.mentions := by
      have hpreamble : declaring x ∉ State.preamble := by
        simp only [State.preamble, List.mem_cons, List.not_mem_nil, or_false, not_or]
        exact ⟨declaring_ne x (by decide), declaring_ne x (by decide)⟩
      have hepilogue : declaring x ∉ State.epilogue := declaring_notMem rfl x
      rw [hes, Mention.mem_learnAll]
      simp [Statements.declaring_mem, hpreamble, hepilogue]
    simp [hdeclared]
  have hbody := q.body.emissions_filter hkeep fun x => by
    rw [or_iff_left (List.not_mem_nil (a := x))]
  rw [hemitted, List.filter_append, hbody, hkeep.filter_eq_self rfl]
  simp

/-- Two programs with a variable in common: only the first one declares it. -/
theorem Run.programs_compose_of_shared_variable :
    (ofSource none [] (bytes "LABEL x\nLET a = 1" ++ Bytes.newline ::
        bytes "LET b = 2\nLET a = b\nGOTO y\nLABEL y")).failure = none ∧
      ∃ front,
        (ofSource none [] (bytes "LABEL x\nLET a = 1")).emissions =
          front ++ [.line (bytes "return 0;"), .line (bytes "\x7d")] ∧
        (ofSource none [] (bytes "LABEL x\nLET a = 1" ++ Bytes.newline ::
            bytes "LET b = 2\nLET a = b\nGOTO y\nLABEL y")).emissions =
          front ++ [.header (bytes "float b;"), .code (bytes "b = "), .code (bytes "2"),
            .line (bytes ";"), .code (bytes "a = "), .code (bytes "b"), .line (bytes ";"),
            .line (bytes "goto y;"), .line (bytes "y:;"), .line (bytes "return 0;"),
            .line (bytes "\x7d")] := by
  obtain ⟨haccepted, front, back, hfront, hback, hboth⟩ := Run.programs_compose none [] [] []
    (bytes "LABEL x\nLET a = 1") (bytes "LET b = 2\nLET a = b\nGOTO y\nLABEL y")
    (by decide +kernel) (by decide +kernel) (by decide +kernel)
  refine ⟨haccepted, front, hfront, hboth.trans (congrArg (front ++ ·) ?_)⟩
  have hcode : (ofSource none [] (bytes "LET b = 2\nLET a = b\nGOTO y\nLABEL y")).emissions =
      [.header (bytes "#include <stdio.h>"), .header (bytes "int main(void) \x7b")] ++
        [.header (bytes "float b;"), .code (bytes "b = "), .code (bytes "2"), .line (bytes ";"),
          .header (bytes "float a;"), .code (bytes "a = "), .code (bytes "b"), .line (bytes ";"),
          .line (bytes "goto y;"), .line (bytes "y:;"), .line (bytes "return 0;"),
          .line (bytes "\x7d")] := by
    decide +kernel
  rw [List.append_cancel_left (hback.symm.trans hcode)]
  decide +kernel

end Teeny
