import Teeny.Proofs.Grammar.Decoding
import Teeny.Proofs.Grammar.Translation

/-!
# Reading programs back from their code

Two sources with the same code are the same program: their lexemes agree, but for empty lines
(`compile_injective`). No name, number or string can make the code of one program look like that
of another.

Names that mean something in the code, such as `if`, `goto` or `printf`, are names like any other
in a program, so the first word of a line of code does not tell what statement it comes from. What
stands behind the word does (`Mark.of`). Once the statement is known, its parts are read back from
the left.
-/

namespace Teeny

/-! ## What a line of code comes from -/

/-- What the code at the start of a text comes from. -/
inductive Mark where
  | text
  | value
  | label
  | jump
  | assignment
  | input
  | block
  | declaration
  /-- No statement: the end of a block or of the program. -/
  | close
  deriving DecidableEq

open Bytes

/-- Tells what code comes from, by what stands behind its first word: `("` and maybe a percent
sign, a colon, or a space with an equals sign, a parenthesis, a zero or a name behind it. -/
def Mark.of (code : Bytes) : Mark :=
  match code.dropWhile isAtom with
  | 40 :: 34 :: rest => if rest.head? = some 37 then value else text
  | 58 :: _ => label
  | 32 :: b :: rest =>
    if b = 61 then assignment
    else if b = 40 then if (rest.dropWhile isAtom).head? = some 32 then input else block
    else if b = 48 then close
    else if code.takeWhile isAtom = bytes "goto" then jump else declaration
  | _ => close

/-- The mark of a statement that holds no other. -/
def Simple.mark : Simple → Mark
  | printText _ _ => .text
  | printValue _ _ => .value
  | label _ => .label
  | jump _ => .jump
  | assignment _ _ => .assignment
  | input _ => .input

namespace Mark

/-- A name behind a space. -/
theorem of_name {code : Bytes} (x : Identifier) {rest : Bytes}
    (h : code.dropWhile isAtom = 32 :: (x.text ++ rest)) :
    of code = if code.takeWhile isAtom = bytes "goto" then jump else declaration := by
  obtain ⟨b, more, hx, hb⟩ := x.exists_head
  have hassign : b ≠ 61 := by
    rintro rfl
    cases hb
  have hparenthesis : b ≠ 40 := by
    rintro rfl
    cases hb
  have hzero : b ≠ 48 := by
    rintro rfl
    cases hb
  rw [hx] at h
  simp only [of, h, List.cons_append, if_neg hassign, if_neg hparenthesis, if_neg hzero]

/-- The text of a string does not start with a percent sign, nor does what ends it. -/
theorem of_text (newline : Bool) (text : Literal) (rest : Bytes) :
    of ((Simple.printText newline text).text ++ rest) = .text := by
  have hhead : (text.text ++ (Simple.ending newline ++ Bytes.line (bytes "\");")) ++ rest).head? ≠
      some 37 := by
    cases htext : text.text with
    | nil =>
      intro hb
      cases newline <;> cases hb
    | cons b more =>
      intro hb
      cases hb
      exact (text.ne_of_mem (b := 37) (by simp [htext])).2.2 rfl
  exact if_neg hhead

theorem of_simple (first : Simple) (rest : Bytes) : of (first.text ++ rest) = first.mark := by
  cases first with
  | printText newline text => exact of_text newline text rest
  | printValue newline value => rfl
  | label x =>
    rw [Simple.text, List.append_assoc, of,
      dropWhile_run x.isAtom.2 (stops_append rfl (by decide) _)]
    rfl
  | jump x =>
    rw [Simple.text, List.append_assoc, List.append_assoc]
    exact of_name x rfl
  | assignment x value =>
    rw [Simple.text, List.append_assoc, List.append_assoc, of,
      dropWhile_run x.isAtom.2 (stops_append rfl (by decide) _)]
    rfl
  | input x => rfl

theorem of_declaration (x : Identifier) (rest : Bytes) :
    of (x.declaration ++ rest) = .declaration := by
  rw [Identifier.declaration, List.append_assoc, List.append_assoc]
  exact of_name x rfl

/-- Behind the first word of an expression no space stands, unless one stands behind all of it. -/
theorem head_dropWhile_expression (e : Expression) {rest : Bytes} (hrest : Stops isAtom rest)
    (hspace : rest.head? ≠ some 32) :
    ((e.text false ++ rest).dropWhile isAtom).head? ≠ some 32 := by
  have hoperand : ∀ (u : Operand) (more : Bytes), Stops isAtom more → more.head? ≠ some 32 →
      ((u.text false ++ more).dropWhile isAtom).head? ≠ some 32 := by
    intro u more hmore hmoreSpace
    obtain ⟨sign, x⟩ := u
    cases sign with
    | none =>
      rw [Operand.text_unsigned, dropWhile_run x.isAtom hmore]
      exact hmoreSpace
    | some o =>
      obtain ⟨o, ho⟩ := o
      intro hhead
      cases o <;> cases ho <;> cases hhead
  have hlink : ∀ o : Operator, o.isAdditive = true ∨ o.isMultiplicative = true → ∀ more : Bytes,
      (o.spelling ++ more).head? ≠ some 32 := by
    intro o ho more
    obtain ⟨b, hb, hclass⟩ := Operator.exists_byte ho
    rw [hb]
    intro hhead
    exact (isAtom_of_operator hclass).2.2 (Option.some.inj hhead)
  induction e using Expression.induction with
  | operand u =>
    rw [Expression.text_ofOperand]
    exact hoperand u rest hrest hspace
  | multiply u o e =>
    rw [Expression.text_multiply, List.append_assoc, List.append_assoc]
    exact hoperand u _ (Operator.stops_spelling (Or.inr o.2) _) (hlink o.1 (Or.inr o.2) _)
  | add u o e =>
    rw [Expression.text_add, List.append_assoc, List.append_assoc]
    exact hoperand u _ (Operator.stops_spelling (Or.inl o.2) _) (hlink o.1 (Or.inl o.2) _)

/-- The condition of a block is not the one that reads a number. -/
theorem of_block (b : Block) (c : Condition) (rest : Bytes) :
    of (b.lead ++ (c.text ++ rest)) = .block := by
  have hspace : ((c.text ++ rest).dropWhile isAtom).head? ≠ some 32 := by
    rw [Condition.text, List.append_assoc]
    cases hlinks : c.chain.rest with
    | nil => exact absurd hlinks c.compares
    | cons link links =>
      obtain ⟨byte, more, ho, hcompare, hinner⟩ :=
        Condition.exists_head_of_isRelational link.1.2
      rw [List.flatMap_cons, ho]
      refine head_dropWhile_expression _ (stops_cons.2 hinner).isAtom_of_isInner ?_
      intro hhead
      obtain rfl : byte = 32 := Option.some.inj hhead
      cases hcompare
  have hmark : of (b.lead ++ (c.text ++ rest)) =
      if ((c.text ++ rest).dropWhile isAtom).head? = some 32 then .input else .block := by
    cases b <;> rfl
  rw [hmark, if_neg hspace]

end Mark

/-! ## Statements -/

theorem Identifier.text_inj {x y : Identifier} {rest rest' : Bytes}
    (hrest : Stops Bytes.isAtom rest) (hrest' : Stops Bytes.isAtom rest')
    (h : x.text ++ rest = y.text ++ rest') : x = y ∧ rest = rest' := by
  obtain ⟨htext, hrests⟩ := run_inj x.isAtom.2 y.isAtom.2 hrest hrest' h
  refine ⟨?_, hrests⟩
  cases x
  cases y
  cases htext
  rfl

/-- A string is read back up to the quote behind it, or the backslash that ends a line. -/
theorem Literal.text_inj {l l' : Literal} {newline newline' : Bool} {rest rest' : Bytes}
    (h : l.text ++ (Simple.ending newline ++ (bytes "\");" ++ rest)) =
      l'.text ++ (Simple.ending newline' ++ (bytes "\");" ++ rest'))) :
    l = l' ∧ newline = newline' ∧ rest = rest' := by
  have hrun : ∀ l : Literal, ∀ b ∈ l.text, (b ≠ 34 && b ≠ 92) = true := by
    intro l b hb
    obtain ⟨hquote, hbackslash, -⟩ := l.ne_of_mem hb
    simp [hquote, hbackslash]
  have hstop : ∀ (newline : Bool) (rest : Bytes),
      Stops (fun b : UInt8 => b ≠ 34 && b ≠ 92)
        (Simple.ending newline ++ (bytes "\");" ++ rest)) := by
    intro newline rest
    cases newline <;> exact stops_cons.2 rfl
  obtain ⟨htext, hending⟩ :=
    run_inj (hrun l) (hrun l') (hstop newline rest) (hstop newline' rest') h
  have hl : l = l' := by
    cases l
    cases l'
    cases htext
    rfl
  cases newline <;> cases newline'
  · exact ⟨hl, rfl, List.append_cancel_left hending⟩
  · cases hending
  · cases hending
  · exact ⟨hl, rfl, List.append_cancel_left (List.append_cancel_left hending)⟩

/-- A statement that holds no other is read back, whatever stands behind it. -/
theorem Simple.text_inj {first first' : Simple} {rest rest' : Bytes}
    (h : first.text ++ rest = first'.text ++ rest') : first = first' ∧ rest = rest' := by
  have hmark : first.mark = first'.mark := by
    rw [← Mark.of_simple first rest, h, Mark.of_simple]
  -- With the same mark the two are built alike, and what they share is taken off from the left.
  cases first with
  | printText newline text =>
    cases first' with
    | printText newline' text' =>
      simp only [Simple.text, List.append_assoc, Bytes.line] at h
      obtain ⟨rfl, rfl, hrests⟩ := Literal.text_inj (List.append_cancel_left h)
      exact ⟨rfl, List.append_cancel_left hrests⟩
    | _ => cases hmark
  | printValue newline value =>
    cases first' with
    | printValue newline' value' =>
      simp only [Simple.text, List.append_assoc] at h
      have htail := List.append_cancel_left h
      have hvalue : newline = newline' ∧
          value.text false ++ (Bytes.line (bytes "));") ++ rest) =
            value'.text false ++ (Bytes.line (bytes "));") ++ rest') := by
        cases newline <;> cases newline'
        · exact ⟨rfl, List.append_cancel_left htail⟩
        · cases htail
        · cases htail
        · exact ⟨rfl, List.append_cancel_left (List.append_cancel_left htail)⟩
      obtain ⟨rfl, hvalue⟩ := hvalue
      obtain ⟨rfl, hrests⟩ := Expression.text_inj (stops_append rfl (by decide) _)
        (stops_append rfl (by decide) _) hvalue
      exact ⟨rfl, List.append_cancel_left hrests⟩
    | _ => cases hmark
  | label x =>
    cases first' with
    | label x' =>
      simp only [Simple.text, List.append_assoc] at h
      obtain ⟨rfl, hrests⟩ := Identifier.text_inj (stops_append rfl (by decide) _)
        (stops_append rfl (by decide) _) h
      exact ⟨rfl, List.append_cancel_left hrests⟩
    | _ => cases hmark
  | jump x =>
    cases first' with
    | jump x' =>
      simp only [Simple.text, List.append_assoc] at h
      obtain ⟨rfl, hrests⟩ := Identifier.text_inj (stops_append rfl (by decide) _)
        (stops_append rfl (by decide) _) (List.append_cancel_left h)
      exact ⟨rfl, List.append_cancel_left hrests⟩
    | _ => cases hmark
  | assignment x value =>
    cases first' with
    | assignment x' value' =>
      simp only [Simple.text, List.append_assoc] at h
      obtain ⟨rfl, hvalue⟩ := Identifier.text_inj (stops_append rfl (by decide) _)
        (stops_append rfl (by decide) _) h
      obtain ⟨rfl, hrests⟩ := Expression.text_inj (stops_append rfl (by decide) _)
        (stops_append rfl (by decide) _) (List.append_cancel_left hvalue)
      exact ⟨rfl, List.append_cancel_left hrests⟩
    | _ => cases hmark
  | input x =>
    cases first' with
    | input x' =>
      simp only [Simple.text, List.append_assoc] at h
      obtain ⟨rfl, hrests⟩ := Identifier.text_inj (stops_append rfl (by decide) _)
        (stops_append rfl (by decide) _) (List.append_cancel_left h)
      simp only [List.append_cancel_left_eq] at hrests
      exact ⟨rfl, hrests⟩
    | _ => cases hmark

/-- The same statements without empty lines. -/
def Statements.compact : Statements → Statements
  | nil => nil
  | simple first _ rest => simple first 0 rest.compact
  | block b condition _ body _ rest => block b condition 0 body.compact 0 rest.compact

theorem Mark.of_brace (rest : Bytes) : of (Bytes.line (bytes "\x7d") ++ rest) = .close := rfl

/-- The words in front of a condition differ. -/
theorem Block.lead_inj {b b' : Block} {rest rest' : Bytes}
    (h : b.lead ++ rest = b'.lead ++ rest') : b = b' ∧ rest = rest' := by
  have hhead := congrArg List.head? h
  cases b <;> cases b'
  · exact ⟨rfl, List.append_cancel_left h⟩
  · cases hhead
  · cases hhead
  · exact ⟨rfl, List.append_cancel_left h⟩

/-- The mark of the first statement, or of what stands behind if there is none. -/
def Statements.mark : Statements → Mark
  | nil => .close
  | simple first _ _ => first.mark
  | block _ _ _ _ _ _ => .block

theorem Statements.mark_text (st : Statements) {rest : Bytes} (hrest : Mark.of rest = .close) :
    Mark.of (st.text ++ rest) = st.mark := by
  cases st with
  | nil => exact hrest
  | simple first blank more =>
    rw [text, List.append_assoc]
    exact Mark.of_simple first _
  | block b c blank body blankBehind more =>
    simp only [text, List.append_assoc]
    exact Mark.of_block b c _

theorem Statements.mark_eq_of_text {st st' : Statements} {rest rest' : Bytes}
    (hrest : Mark.of rest = .close) (hrest' : Mark.of rest' = .close)
    (h : st.text ++ rest = st'.text ++ rest') : st.mark = st'.mark := by
  rw [← st.mark_text hrest, h, st'.mark_text hrest']

/-- Statements are read back up to their empty lines, where the end of a block or of the program
stands behind them. -/
theorem Statements.text_inj {st st' : Statements} {rest rest' : Bytes}
    (hrest : Mark.of rest = .close) (hrest' : Mark.of rest' = .close)
    (h : st.text ++ rest = st'.text ++ rest') : st.compact = st'.compact ∧ rest = rest' := by
  induction st generalizing st' rest rest' with
  | nil =>
    have hmark := mark_eq_of_text hrest hrest' h
    cases st' with
    | nil => exact ⟨rfl, h⟩
    | simple first' blank' more' => cases first' <;> cases hmark
    | block b' c' blank' body' blankBehind' more' => cases hmark
  | simple first blank more ih =>
    have hmark := mark_eq_of_text hrest hrest' h
    cases st' with
    | nil => cases first <;> cases hmark
    | simple first' blank' more' =>
      rw [text, text, List.append_assoc, List.append_assoc] at h
      obtain ⟨rfl, hmore⟩ := Simple.text_inj h
      obtain ⟨hcompact, hrests⟩ := ih hrest hrest' hmore
      exact ⟨by rw [compact, compact, hcompact], hrests⟩
    | block b' c' blank' body' blankBehind' more' => cases first <;> cases hmark
  | block b c blank body blankBehind more ihbody ihmore =>
    have hmark := mark_eq_of_text hrest hrest' h
    cases st' with
    | nil => cases hmark
    | simple first' blank' more' => cases first' <;> cases hmark
    | block b' c' blank' body' blankBehind' more' =>
      simp only [text, List.append_assoc] at h
      obtain ⟨rfl, hcondition⟩ := Block.lead_inj h
      obtain ⟨rfl, hbody⟩ := Condition.text_inj
        ⟨stops_append rfl (by decide) _, stops_append rfl (by decide) _⟩
        ⟨stops_append rfl (by decide) _, stops_append rfl (by decide) _⟩ hcondition
      -- The body is closed by a brace, the rest by what closes the whole.
      obtain ⟨hcompact, hmore⟩ :=
        ihbody (Mark.of_brace _) (Mark.of_brace _) (List.append_cancel_left hbody)
      obtain ⟨hcompactMore, hrests⟩ := ihmore hrest hrest' (List.append_cancel_left hmore)
      exact ⟨by rw [compact, compact, hcompact, hcompactMore], hrests⟩

/-! ## Programs -/

theorem Identifier.declaration_inj {x y : Identifier} {rest rest' : Bytes}
    (h : x.declaration ++ rest = y.declaration ++ rest') : x = y ∧ rest = rest' := by
  simp only [declaration, List.append_assoc] at h
  obtain ⟨hxy, hrests⟩ := Identifier.text_inj (stops_append rfl (by decide) _)
    (stops_append rfl (by decide) _) (List.append_cancel_left h)
  exact ⟨hxy, List.append_cancel_left hrests⟩

theorem Statements.mark_ne_declaration (st : Statements) : st.mark ≠ .declaration := by
  cases st with
  | nil => simp [mark]
  | simple first blank rest => cases first <;> simp [mark, Simple.mark]
  | block b c blank body blankBehind rest => simp [mark]

namespace Program

/-- The text in front of the declarations. -/
def opening : Bytes :=
  Bytes.line (bytes "#include <stdio.h>") ++ Bytes.line (bytes "int main(void) \x7b")

/-- The text behind the statements. -/
def ending : Bytes := Bytes.line (bytes "return 0;") ++ Bytes.line (bytes "\x7d")

/-- The text of a program is its declarations and then its statements. -/
theorem exists_text_eq (p : Program) :
    ∃ xs : List Identifier,
      p.text = opening ++ (xs.flatMap Identifier.declaration ++ (p.body.text ++ ending)) := by
  obtain ⟨xs, hxs⟩ := p.body.headerOf_emissions []
  refine ⟨xs, ?_⟩
  rw [p.text_eq]
  simp only [Emission.text, emissions, Emission.headerOf_append, Emission.bodyOf_append, hxs,
    Statements.bodyOf_emissions, List.append_assoc]
  rfl

/-- A program is read back from its code, up to empty lines. -/
theorem text_inj {p q : Program} (h : p.text = q.text) : p.body.compact = q.body.compact := by
  obtain ⟨xs, hxs⟩ := p.exists_text_eq
  obtain ⟨ys, hys⟩ := q.exists_text_eq
  rw [hxs, hys] at h
  have hclose : Mark.of ending = .close := rfl
  -- The declarations end where the first statement stands, which has a mark of its own.
  have hends : ∀ st : Statements, Mark.of (st.text ++ ending) ≠ .declaration := by
    intro st
    rw [st.mark_text hclose]
    exact st.mark_ne_declaration
  obtain ⟨-, hbody⟩ := flatMap_inj (fun _ => True) (fun rest => Mark.of rest ≠ .declaration)
    (fun _ _ _ _ _ _ => Identifier.declaration_inj) (fun _ _ => trivial) (fun _ _ => trivial)
    (fun x rest hne => hne (Mark.of_declaration x rest)) (hends p.body) (hends q.body)
    (List.append_cancel_left h)
  exact (Statements.text_inj hclose hclose hbody).1

end Program

/-! ## Empty lines -/

namespace Lexeme

/-- Lexemes with every run of line ends made one; if one stands before them (`afterLine`), then
without those at the start. -/
def collapse (afterLine : Bool) : List Lexeme → List Lexeme
  | [] => []
  | l :: ls =>
    if l.kind = .newline then
      if afterLine then collapse true ls else l :: collapse true ls
    else l :: collapse false ls

/-- Lexemes without empty lines: line ends at the start are dropped, and every run of line ends is
made one. -/
def withoutBlankLines (ls : List Lexeme) : List Lexeme := collapse true ls

theorem collapse_append {ls : List Lexeme} (hls : ∀ l ∈ ls, l.kind ≠ .newline) (hne : ls ≠ [])
    (afterLine : Bool) (rest : List Lexeme) :
    collapse afterLine (ls ++ rest) = ls ++ collapse false rest := by
  induction ls generalizing afterLine with
  | nil => exact absurd rfl hne
  | cons l ls ih =>
    obtain ⟨hl, hls⟩ := List.forall_mem_cons.1 hls
    rw [List.cons_append, collapse, if_neg hl]
    cases ls with
    | nil => rfl
    | cons l' ls' =>
      rw [ih hls (List.cons_ne_nil _ _)]
      rfl

theorem collapse_blank (n : Nat) (rest : List Lexeme) :
    collapse true (List.replicate n newline ++ rest) = collapse true rest := by
  induction n with
  | zero => rfl
  | succ n ih => exact ih

theorem collapse_lineEnd (blank : Nat) (rest : List Lexeme) :
    collapse false (lineEnd blank ++ rest) = newline :: collapse true rest :=
  congrArg (newline :: ·) (collapse_blank blank rest)

end Lexeme

theorem Primary.kind_ne_newline (x : Primary) : x.lexeme.kind ≠ .newline := by
  cases x <;> simp [lexeme]

theorem Expression.kind_ne_newline (e : Expression) : ∀ l ∈ e.lexemes, l.kind ≠ .newline :=
  e.forall_mem_lexemes Primary.kind_ne_newline (by simp)

theorem Condition.kind_ne_newline (c : Condition) : ∀ l ∈ c.lexemes, l.kind ≠ .newline :=
  c.forall_mem_lexemes Primary.kind_ne_newline (by simp)

theorem Simple.kind_ne_newline (first : Simple) : ∀ l ∈ first.lexemes, l.kind ≠ .newline := by
  cases first with
  | printValue newline value =>
    exact List.forall_mem_cons.2 ⟨by simp, value.kind_ne_newline⟩
  | assignment x value =>
    exact List.forall_mem_cons.2 ⟨by simp, List.forall_mem_cons.2 ⟨by simp,
      List.forall_mem_cons.2 ⟨by simp, value.kind_ne_newline⟩⟩⟩
  | _ => simp [lexemes]

/-- Statements without empty lines are those with no empty line behind any statement. -/
theorem Statements.collapse_lexemes (st : Statements) (rest : List Lexeme) :
    Lexeme.collapse true (st.lexemes ++ rest) =
      st.compact.lexemes ++ Lexeme.collapse true rest := by
  induction st generalizing rest with
  | nil => rfl
  | simple first blank more ih =>
    have hne : first.lexemes ≠ [] := by
      cases first <;> exact List.cons_ne_nil _ _
    simp only [lexemes, compact, List.append_assoc]
    rw [Lexeme.collapse_append first.kind_ne_newline hne, Lexeme.collapse_lineEnd, ih]
    rfl
  | block b c blank body blankBehind more ihbody ihmore =>
    have hhead : ∀ l ∈ .ofKeyword b.firstWord :: (c.lexemes ++ [.ofKeyword b.thenWord]),
        l.kind ≠ .newline :=
      List.forall_mem_cons.2 ⟨by simp, List.forall_mem_append.2
        ⟨c.kind_ne_newline, List.forall_mem_singleton.2 (by simp)⟩⟩
    have hclosing : ∀ l ∈ [Lexeme.ofKeyword b.lastWord], l.kind ≠ .newline :=
      List.forall_mem_singleton.2 (by simp)
    have hlexemes : ∀ (blank : Nat) (body : Statements) (blankBehind : Nat) (more : Statements),
        (block b c blank body blankBehind more).lexemes =
          (.ofKeyword b.firstWord :: (c.lexemes ++ [.ofKeyword b.thenWord])) ++
            (Lexeme.lineEnd blank ++ (body.lexemes ++
              ([.ofKeyword b.lastWord] ++ (Lexeme.lineEnd blankBehind ++ more.lexemes)))) := by
      intro blank body blankBehind more
      simp [lexemes]
    rw [hlexemes, compact, hlexemes]
    simp only [List.append_assoc]
    rw [Lexeme.collapse_append hhead (List.cons_ne_nil _ _), Lexeme.collapse_lineEnd, ihbody,
      Lexeme.collapse_append hclosing (List.cons_ne_nil _ _), Lexeme.collapse_lineEnd, ihmore]
    rfl

theorem Program.withoutBlankLines_lexemes (p : Program) :
    Lexeme.withoutBlankLines p.lexemes = p.body.compact.lexemes ++ [.eof] := by
  rw [Lexeme.withoutBlankLines, lexemes, List.append_assoc, Lexeme.collapse_blank,
    Statements.collapse_lexemes]
  rfl

/-- Sources that deliver the same code have the same lexemes, but for empty lines. Neither their
names nor the bounds on their nesting nor the room of their receivers matter. -/
theorem compile_injective {bound bound' : Option Nat} {file file' source source' : Bytes}
    {room room' : Option Int} {output : Bytes}
    (h : compile bound file source room = (output, none))
    (h' : compile bound' file' source' room' = (output, none)) :
    Lexeme.withoutBlankLines ((scan file source).tokens.map Token.toLexeme) =
      Lexeme.withoutBlankLines ((scan file' source').tokens.map Token.toLexeme) := by
  obtain ⟨haccepted, houtput⟩ := accepted_of_compile h
  obtain ⟨haccepted', houtput'⟩ := accepted_of_compile h'
  obtain ⟨p, hp⟩ := Run.exists_program haccepted
  obtain ⟨q, hq⟩ := Run.exists_program haccepted'
  rw [Run.emissions_of_program haccepted hp, ← p.text_eq] at houtput
  rw [Run.emissions_of_program haccepted' hq, ← q.text_eq] at houtput'
  have hbody := Program.text_inj (houtput.symm.trans houtput')
  rw [← hp, ← hq, Program.withoutBlankLines_lexemes, Program.withoutBlankLines_lexemes, hbody]

/-- Two layouts of one program, whose variable is called like a word of the code. -/
theorem compile_injective_of_blank_lines :
    Lexeme.withoutBlankLines
        ((scan [] (bytes "LET if = 1\nPRINT if\n")).tokens.map Token.toLexeme) =
      Lexeme.withoutBlankLines
        ((scan [] (bytes "\n\nLET if=1\n\n  PRINT if")).tokens.map Token.toLexeme) := by
  have hfirst : compile none [] (bytes "LET if = 1\nPRINT if\n") none =
      (bytes "#include <stdio.h>\nint main(void) \x7b\nfloat if;\nif = 1;\n" ++
        bytes "printf(\"%.2f\", (float)(if));\nreturn 0;\n\x7d\n", none) := by
    decide +kernel
  have hsecond : compile (some 2) [] (bytes "\n\nLET if=1\n\n  PRINT if") (some 200) =
      (bytes "#include <stdio.h>\nint main(void) \x7b\nfloat if;\nif = 1;\n" ++
        bytes "printf(\"%.2f\", (float)(if));\nreturn 0;\n\x7d\n", none) := by
    decide +kernel
  exact compile_injective hfirst hsecond

end Teeny
