import Teeny.Proofs.Grammar.Text

/-!
# Reading expressions back from their code

The code of an expression is the lexemes of the expression, with a space in front of some signs. Two
expressions with the same code are the same, also where more code stands behind, as long as that
does not go on with the expression (`Expression.text_inj`); and so for conditions
(`Condition.text_inj`). Each proof reads one piece from the left: an operand is a run of atoms
with at most a sign before it, an operator between operands is one byte, and a comparison is a run
of bytes of its own.
-/

namespace Teeny

theorem Operator.spelling_inj {o o' : Operator} (h : o.spelling = o'.spelling) : o = o' := by
  cases o <;> cases o' <;> first | rfl | exact absurd h (by decide)

/-! ## Operands -/

namespace Primary

theorem isAtom (x : Primary) : ∀ b ∈ x.lexeme.text, Bytes.isAtom b = true := by
  cases x with
  | number n => exact n.isAtom.2
  | reference x => exact x.isAtom.2

theorem exists_head (x : Primary) :
    ∃ b rest, x.lexeme.text = b :: rest ∧ Bytes.isAtom b = true := by
  cases hx : x.lexeme.text with
  | nil =>
    exfalso
    cases x with
    | number n =>
      obtain ⟨b, rest, hn, -⟩ := n.exists_head
      cases hn.symm.trans hx
    | reference x =>
      obtain ⟨b, rest, hn, -⟩ := x.exists_head
      cases hn.symm.trans hx
  | cons b rest => exact ⟨b, rest, rfl, x.isAtom b (by simp [hx])⟩

/-- A number and a variable never read the same: one starts with a digit, the other with a
letter. -/
theorem number_ne_reference (n : Numeral) (x : Identifier) : n.text ≠ x.text := by
  intro h
  obtain ⟨b, rest, hn, hdigit⟩ := n.exists_head
  obtain ⟨b', rest', hx, hletter⟩ := x.exists_head
  obtain ⟨rfl, -⟩ : b = b' ∧ rest = rest' := by
    rw [hn, hx] at h
    exact List.cons.inj h
  rw [(Cursor.ne_of_isLetter hletter).2.2] at hdigit
  cases hdigit

theorem text_inj {x y : Primary} (h : x.lexeme.text = y.lexeme.text) : x = y := by
  cases x with
  | number n =>
    cases y with
    | number m => exact congrArg number (by cases n; cases m; cases h; rfl)
    | reference y => exact absurd h (number_ne_reference n y)
  | reference x =>
    cases y with
    | number m => exact absurd h.symm (number_ne_reference m x)
    | reference y => exact congrArg reference (by cases x; cases y; cases h; rfl)

end Primary

/-- An operator that may be a sign or stand between operands is one byte, and no atom. -/
theorem Operator.exists_byte {o : Operator} (h : o.isAdditive = true ∨ o.isMultiplicative = true) :
    ∃ b, o.spelling = [b] ∧ (b = 42 ∨ b = 43 ∨ b = 45 ∨ b = 47) := by
  cases o with
  | plus => exact ⟨43, rfl, by decide⟩
  | minus => exact ⟨45, rfl, by decide⟩
  | times => exact ⟨42, rfl, by decide⟩
  | divide => exact ⟨47, rfl, by decide⟩
  | _ => rcases h with h | h <;> cases h

/-- Whether a byte goes on with an expression. -/
def Bytes.isInner (b : UInt8) : Bool :=
  isAtom b || b = 42 || b = 43 || b = 45 || b = 47

theorem Bytes.isAtom_of_operator {b : UInt8} (h : b = 42 ∨ b = 43 ∨ b = 45 ∨ b = 47) :
    isAtom b = false ∧ isInner b = true ∧ b ≠ 32 := by
  rcases h with rfl | rfl | rfl | rfl <;> decide

namespace Operand

theorem text_unsigned (afterSign : Bool) (x : Primary) :
    text afterSign ⟨none, x⟩ = x.lexeme.text := by
  simp [text_eq]

/-- A sign stands first, or the space before it. -/
theorem exists_head_signed (afterSign : Bool) (o : { o : Operator // o.isAdditive = true })
    (x : Primary) :
    ∃ b rest, text afterSign ⟨some o, x⟩ = b :: rest ∧ (b = 32 ∨ b = 43 ∨ b = 45) ∧
      (b = 32 ↔ afterSign = true) := by
  obtain ⟨o, ho⟩ := o
  cases o <;> cases ho <;> cases afterSign <;> exact ⟨_, _, rfl, by decide⟩

/-- An operand with a sign does not start like one without. -/
theorem signed_ne_unsigned (afterSign : Bool) (o : { o : Operator // o.isAdditive = true })
    (x y : Primary) (rest rest' : Bytes) :
    text afterSign ⟨some o, x⟩ ++ rest ≠ text afterSign ⟨none, y⟩ ++ rest' := by
  intro h
  obtain ⟨b, more, hx, hsign, -⟩ := exists_head_signed afterSign o x
  obtain ⟨b', more', hy, hatom⟩ := y.exists_head
  rw [text_unsigned, hx, hy] at h
  obtain ⟨rfl, -⟩ := List.cons.inj h
  rcases hsign with rfl | rfl | rfl <;> exact absurd hatom (by decide)

/-- An operand is read back where no atom stands behind it. -/
theorem text_inj {afterSign : Bool} {u v : Operand} {rest rest' : Bytes}
    (hrest : Stops Bytes.isAtom rest) (hrest' : Stops Bytes.isAtom rest')
    (h : u.text afterSign ++ rest = v.text afterSign ++ rest') : u = v ∧ rest = rest' := by
  -- With the signs out of the way, the primaries are runs of atoms.
  have hprimary : ∀ x y : Primary, x.lexeme.text ++ rest = y.lexeme.text ++ rest' →
      x = y ∧ rest = rest' := by
    intro x y hxy
    obtain ⟨htext, hrests⟩ := run_inj x.isAtom y.isAtom hrest hrest' hxy
    exact ⟨Primary.text_inj htext, hrests⟩
  obtain ⟨sign, x⟩ := u
  obtain ⟨sign', y⟩ := v
  cases sign with
  | none =>
    cases sign' with
    | none =>
      rw [text_unsigned, text_unsigned] at h
      obtain ⟨rfl, hrests⟩ := hprimary x y h
      exact ⟨rfl, hrests⟩
    | some o' => exact absurd h.symm (signed_ne_unsigned afterSign o' y x rest' rest)
  | some o =>
    cases sign' with
    | none => exact absurd h (signed_ne_unsigned afterSign o x y rest rest')
    | some o' =>
      obtain ⟨b, hb, -⟩ := Operator.exists_byte (Or.inl o.2)
      obtain ⟨b', hb', -⟩ := Operator.exists_byte (Or.inl o'.2)
      obtain ⟨hbyte, htail⟩ : b = b' ∧ x.lexeme.text ++ rest = y.lexeme.text ++ rest' := by
        simpa [text_eq, hb, hb'] using h
      obtain ⟨rfl, hrests⟩ := hprimary x y htail
      have ho : o = o' := Subtype.ext (Operator.spelling_inj (by rw [hb, hb', hbyte]))
      exact ⟨by rw [ho], hrests⟩

end Operand

/-! ## Expressions -/

theorem Stops.isAtom_of_isInner {rest : Bytes} (h : Stops Bytes.isInner rest) :
    Stops Bytes.isAtom rest := by
  intro b hb
  have hinner := h b hb
  simp only [Bytes.isInner, Bool.or_eq_false_iff] at hinner
  exact hinner.1.1.1.1

namespace Operator

variable {o o' : Operator} (ho : o.isAdditive = true ∨ o.isMultiplicative = true)
include ho

theorem stops_spelling (rest : Bytes) : Stops Bytes.isAtom (o.spelling ++ rest) := by
  obtain ⟨b, hb, hclass⟩ := exists_byte ho
  rw [hb]
  exact stops_cons.2 (Bytes.isAtom_of_operator hclass).1

/-- What does not go on with an expression starts with no operator. -/
theorem ne_spelling_append {rest : Bytes} (hrest : Stops Bytes.isInner rest) (more : Bytes) :
    rest ≠ o.spelling ++ more := by
  rintro rfl
  obtain ⟨b, hb, hclass⟩ := exists_byte ho
  rw [hb] at hrest
  have hinner : Bytes.isInner b = false := stops_cons.1 hrest
  rw [(Bytes.isAtom_of_operator hclass).2.1] at hinner
  cases hinner

theorem spelling_append_inj (ho' : o'.isAdditive = true ∨ o'.isMultiplicative = true)
    {rest rest' : Bytes} (h : o.spelling ++ rest = o'.spelling ++ rest') :
    o = o' ∧ rest = rest' := by
  obtain ⟨b, hb, -⟩ := exists_byte ho
  obtain ⟨b', hb', -⟩ := exists_byte ho'
  rw [hb, hb'] at h
  obtain ⟨rfl, hrests⟩ := List.cons.inj h
  exact ⟨spelling_inj (hb.trans hb'.symm), hrests⟩

end Operator

namespace Expression

/-- An expression is read back where the rest does not go on with it. -/
theorem text_inj {afterSign : Bool} {e e' : Expression} {rest rest' : Bytes}
    (hrest : Stops Bytes.isInner rest) (hrest' : Stops Bytes.isInner rest')
    (h : e.text afterSign ++ rest = e'.text afterSign ++ rest') : e = e' ∧ rest = rest' := by
  have hatom := hrest.isAtom_of_isInner
  have hatom' := hrest'.isAtom_of_isInner
  -- Both start with an operand. What stands behind it is the rest, or an operator that tells
  -- whether the term goes on or the next one starts.
  induction e using Expression.induction generalizing e' afterSign with
  | operand u =>
    induction e' using Expression.induction with
    | operand v =>
      rw [text_ofOperand, text_ofOperand] at h
      obtain ⟨rfl, hrests⟩ := Operand.text_inj hatom hatom' h
      exact ⟨rfl, hrests⟩
    | multiply v o e' =>
      rw [text_ofOperand, text_multiply, List.append_assoc, List.append_assoc] at h
      obtain ⟨-, htail⟩ :=
        Operand.text_inj hatom (Operator.stops_spelling (Or.inr o.2) _) h
      exact absurd htail (Operator.ne_spelling_append (Or.inr o.2) hrest _)
    | add v o e' =>
      rw [text_ofOperand, text_add, List.append_assoc, List.append_assoc] at h
      obtain ⟨-, htail⟩ :=
        Operand.text_inj hatom (Operator.stops_spelling (Or.inl o.2) _) h
      exact absurd htail (Operator.ne_spelling_append (Or.inl o.2) hrest _)
  | multiply u o e ih =>
    rw [text_multiply, List.append_assoc, List.append_assoc] at h
    have hstop := Operator.stops_spelling (Or.inr o.2) (e.text false ++ rest)
    induction e' using Expression.induction with
    | operand v =>
      rw [text_ofOperand] at h
      obtain ⟨-, htail⟩ := Operand.text_inj hstop hatom' h
      exact absurd htail.symm (Operator.ne_spelling_append (Or.inr o.2) hrest' _)
    | multiply v o' e' =>
      rw [text_multiply, List.append_assoc, List.append_assoc] at h
      obtain ⟨rfl, htail⟩ := Operand.text_inj hstop (Operator.stops_spelling (Or.inr o'.2) _) h
      obtain ⟨ho, hlater⟩ := Operator.spelling_append_inj (Or.inr o.2) (Or.inr o'.2) htail
      obtain ⟨rfl, hrests⟩ := ih hlater
      obtain rfl : o = o' := Subtype.ext ho
      exact ⟨rfl, hrests⟩
    | add v o' e' =>
      rw [text_add, List.append_assoc, List.append_assoc] at h
      obtain ⟨-, htail⟩ := Operand.text_inj hstop (Operator.stops_spelling (Or.inl o'.2) _) h
      obtain ⟨ho, -⟩ := Operator.spelling_append_inj (Or.inr o.2) (Or.inl o'.2) htail
      have hadditive := Operator.isAdditive_of_isMultiplicative o.2
      rw [ho, o'.2] at hadditive
      cases hadditive
  | add u o e ih =>
    rw [text_add, List.append_assoc, List.append_assoc] at h
    have hstop := Operator.stops_spelling (Or.inl o.2) (e.text true ++ rest)
    induction e' using Expression.induction with
    | operand v =>
      rw [text_ofOperand] at h
      obtain ⟨-, htail⟩ := Operand.text_inj hstop hatom' h
      exact absurd htail.symm (Operator.ne_spelling_append (Or.inl o.2) hrest' _)
    | multiply v o' e' =>
      rw [text_multiply, List.append_assoc, List.append_assoc] at h
      obtain ⟨-, htail⟩ := Operand.text_inj hstop (Operator.stops_spelling (Or.inr o'.2) _) h
      obtain ⟨ho, -⟩ := Operator.spelling_append_inj (Or.inl o.2) (Or.inr o'.2) htail
      have hadditive := Operator.isAdditive_of_isMultiplicative o'.2
      rw [← ho, o.2] at hadditive
      cases hadditive
    | add v o' e' =>
      rw [text_add, List.append_assoc, List.append_assoc] at h
      obtain ⟨rfl, htail⟩ := Operand.text_inj hstop (Operator.stops_spelling (Or.inl o'.2) _) h
      obtain ⟨ho, hlater⟩ := Operator.spelling_append_inj (Or.inl o.2) (Or.inl o'.2) htail
      obtain ⟨rfl, hrests⟩ := ih hlater
      obtain rfl : o = o' := Subtype.ext ho
      exact ⟨rfl, hrests⟩

/-- An expression starts with an operand. -/
theorem exists_text_head (afterSign : Bool) (e : Expression) :
    ∃ b rest, e.text afterSign = b :: rest ∧
      (Bytes.isAtom b = true ∨ (b = 32 ∨ b = 43 ∨ b = 45) ∧ (b = 32 ↔ afterSign = true)) := by
  have hoperand : ∀ (u : Operand) (more : Bytes), ∃ b rest, u.text afterSign ++ more = b :: rest ∧
      (Bytes.isAtom b = true ∨ (b = 32 ∨ b = 43 ∨ b = 45) ∧ (b = 32 ↔ afterSign = true)) := by
    rintro ⟨sign, x⟩ more
    cases sign with
    | none =>
      obtain ⟨b, rest, hx, hb⟩ := x.exists_head
      exact ⟨b, rest ++ more, by rw [Operand.text_unsigned, hx]; rfl, Or.inl hb⟩
    | some o =>
      obtain ⟨b, rest, hx, hb⟩ := Operand.exists_head_signed afterSign o x
      exact ⟨b, rest ++ more, by rw [hx]; rfl, Or.inr hb⟩
  induction e using Expression.induction with
  | operand u => simpa using hoperand u []
  | multiply u o e => simpa using hoperand u (o.1.spelling ++ e.text false)
  | add u o e => simpa using hoperand u (o.1.spelling ++ e.text true)

end Expression

/-! ## Conditions -/

/-- Whether a byte stands in a comparison. -/
def Bytes.isCompare (b : UInt8) : Bool := b = 33 || b = 60 || b = 61 || b = 62

namespace Condition

/-- What may stand behind a condition: neither an expression nor a comparison goes on. -/
def Ends (rest : Bytes) : Prop := Stops Bytes.isInner rest ∧ Stops Bytes.isCompare rest

theorem exists_head_of_isRelational {o : Operator} (h : o.isRelational = true) :
    ∃ b more, o.spelling = b :: more ∧ Bytes.isCompare b = true ∧ Bytes.isInner b = false := by
  cases o <;> cases h <;> exact ⟨_, _, rfl, rfl, rfl⟩

theorem isCompare_of_mem {o : Operator} (h : o.isRelational = true) :
    ∀ b ∈ o.spelling, Bytes.isCompare b = true := by
  refine List.all_eq_true.1 ?_
  cases o <;> cases h <;> rfl

/-- An expression does not go on with a comparison. -/
theorem stops_isCompare (e : Expression) (rest : Bytes) :
    Stops Bytes.isCompare (e.text false ++ rest) := by
  obtain ⟨b, more, he, hclass⟩ := e.exists_text_head false
  rw [he]
  refine stops_cons.2 ?_
  rcases hclass with hb | ⟨hb, -⟩
  · cases hcompare : Bytes.isCompare b with
    | false => rfl
    | true =>
      simp only [Bytes.isCompare, Bool.or_eq_true, decide_eq_true_eq] at hcompare
      rcases hcompare with ((rfl | rfl) | rfl) | rfl <;> exact absurd hb (by decide)
  · rcases hb with rfl | rfl | rfl <;> decide

/-- One comparison and the expression behind it. -/
def linkText (link : { o : Operator // o.isRelational = true } × Expression) : Bytes :=
  link.1.1.spelling ++ link.2.text false

theorem stops_link (link : { o : Operator // o.isRelational = true } × Expression)
    (rest : Bytes) : Stops Bytes.isInner (linkText link ++ rest) := by
  obtain ⟨b, more, ho, -, hinner⟩ := exists_head_of_isRelational link.1.2
  rw [linkText, ho]
  exact stops_cons.2 hinner

theorem not_ends_link (link : { o : Operator // o.isRelational = true } × Expression)
    (rest : Bytes) : ¬ Ends (linkText link ++ rest) := by
  rintro ⟨-, hstop⟩
  obtain ⟨b, more, ho, hcompare, -⟩ := exists_head_of_isRelational link.1.2
  rw [linkText, ho] at hstop
  have hnot : Bytes.isCompare b = false := stops_cons.1 hstop
  rw [hcompare] at hnot
  cases hnot

theorem link_inj (link link' : { o : Operator // o.isRelational = true } × Expression)
    (rest rest' : Bytes) (hrest : Stops Bytes.isInner rest) (hrest' : Stops Bytes.isInner rest')
    (h : linkText link ++ rest = linkText link' ++ rest') : link = link' ∧ rest = rest' := by
  rw [linkText, linkText, List.append_assoc, List.append_assoc] at h
  obtain ⟨ho, htail⟩ := run_inj (isCompare_of_mem link.1.2) (isCompare_of_mem link'.1.2)
    (stops_isCompare _ _) (stops_isCompare _ _) h
  obtain ⟨he, hrests⟩ := Expression.text_inj hrest hrest' htail
  exact ⟨Prod.ext (Subtype.ext (Operator.spelling_inj ho)) he, hrests⟩

/-- A condition is read back where the rest does not go on with it. -/
theorem text_inj {c c' : Condition} {rest rest' : Bytes} (hrest : Ends rest) (hrest' : Ends rest')
    (h : c.text ++ rest = c'.text ++ rest') : c = c' ∧ rest = rest' := by
  rw [text, text, List.append_assoc, List.append_assoc] at h
  obtain ⟨hfirst, hlinks⟩ := Expression.text_inj
    (flatMap_append_of stops_link (fun _ => And.left) _ hrest)
    (flatMap_append_of stops_link (fun _ => And.left) _ hrest') h
  obtain ⟨hlinks, hrests⟩ :=
    flatMap_inj (Stops Bytes.isInner) Ends link_inj stops_link (fun _ => And.left) not_ends_link
      hrest hrest' hlinks
  refine ⟨?_, hrests⟩
  obtain ⟨⟨first, links⟩, hc⟩ := c
  obtain ⟨⟨first', links'⟩, hc'⟩ := c'
  cases hfirst
  cases hlinks
  rfl

end Condition

end Teeny
