import Teeny.Proofs.Grammar.Parts
import Teeny.Proofs.Target.Tokens

/-!
# Expressions as C derives them

The grammar of C for the operators that generated expressions have. Signs bind tighter than
multiplication and division, these tighter than addition and subtraction, and operators of one level
are taken from the left: each level is a chain of the level below, whose tree leans to the left
(`Chained`).

A plus or a minus may be a sign or stand between operands, so it takes an argument that tokens have
no two trees: what a derivation reads is decided from the left, token by token, if it is known what
may follow it (`Determined`). The tokens of an expression have the tree that its own derivation has,
and no other (`Expression.sum_iff`). So C reads each expression of an accepted program as the
program means it (`Run.expressions_read_alike`).
-/

namespace Teeny

namespace Target

/-! ## The grammar -/

/-- An expression of C: a name or a number, and operators in front of and between such. -/
inductive ExprTree where
  | leaf (text : Bytes)
  | signed (operator : Bytes) (operand : ExprTree)
  | binary (operator : Bytes) (left right : ExprTree)
  deriving DecidableEq

/-- Names and numbers, with any number of signs before them. -/
inductive IsSigned : List Bytes → ExprTree → Prop where
  | atom {t : Bytes} (ht : isAtomic t = true) : IsSigned [t] (.leaf t)
  | sign {o : Operator} {ts : List Bytes} {x : ExprTree} (ho : o.isAdditive = true)
    (hx : IsSigned ts x) : IsSigned (o.spelling :: ts) (.signed o.spelling x)

/-- One or more of a kind of expression, with operators of one level between them. What stands on
the left of an operator is one operand of it. -/
inductive Chained (p : Operator → Bool) (part : List Bytes → ExprTree → Prop) :
    List Bytes → ExprTree → Prop where
  | single {ts : List Bytes} {x : ExprTree} (hx : part ts x) : Chained p part ts x
  | binary {o : Operator} {ts us : List Bytes} {x y : ExprTree} (ho : p o = true)
    (hx : Chained p part ts x) (hy : part us y) :
    Chained p part (ts ++ o.spelling :: us) (.binary o.spelling x y)

/-- Products and quotients. -/
def IsProduct : List Bytes → ExprTree → Prop := Chained Operator.isMultiplicative IsSigned

/-- Sums and differences. -/
def IsSum : List Bytes → ExprTree → Prop := Chained Operator.isAdditive IsProduct

/-! ## Chains from the left -/

/-- An operator and what stands on the right of it, with its tree. -/
structure Link where
  operator : Operator
  tokens : List Bytes
  tree : ExprTree

namespace Link

/-- The tokens of links in a row. -/
def tokensOf (links : List Link) : List Bytes :=
  links.flatMap fun link => link.operator.spelling :: link.tokens

/-- The tree of links behind an operand. -/
def treeOf (first : ExprTree) (links : List Link) : ExprTree :=
  links.foldl (fun x link => .binary link.operator.spelling x link.tree) first

/-- Links that stand for parts, with operators of one level. -/
def AllOf (p : Operator → Bool) (part : List Bytes → ExprTree → Prop) (links : List Link) : Prop :=
  ∀ link ∈ links, p link.operator = true ∧ part link.tokens link.tree

theorem tokensOf_cons (link : Link) (links : List Link) :
    tokensOf (link :: links) = link.operator.spelling :: (link.tokens ++ tokensOf links) := rfl

theorem treeOf_cons (first : ExprTree) (link : Link) (links : List Link) :
    treeOf first (link :: links) =
      treeOf (.binary link.operator.spelling first link.tree) links := rfl

end Link

namespace Chained

variable {p : Operator → Bool} {part : List Bytes → ExprTree → Prop} {ts : List Bytes}
  {x : ExprTree}

/-- A chain goes on with any links. -/
theorem append_links (h : Chained p part ts x) {links : List Link}
    (hlinks : Link.AllOf p part links) :
    Chained p part (ts ++ Link.tokensOf links) (Link.treeOf x links) := by
  induction links generalizing ts x with
  | nil => simpa [Link.tokensOf, Link.treeOf] using h
  | cons link links ih =>
    obtain ⟨⟨ho, hpart⟩, hrest⟩ := List.forall_mem_cons.1 hlinks
    have hnext := ih (.binary ho h hpart) hrest
    rw [List.append_assoc] at hnext
    exact hnext

/-- A chain is its first part and links. -/
theorem exists_links (h : Chained p part ts x) :
    ∃ us y links, part us y ∧ Link.AllOf p part links ∧ ts = us ++ Link.tokensOf links ∧
      x = Link.treeOf y links := by
  induction h with
  | single hx => exact ⟨_, _, [], hx, List.forall_mem_nil _, by simp [Link.tokensOf], rfl⟩
  | @binary o ts us x y ho hx hy ih =>
    obtain ⟨vs, z, links, hz, hlinks, rfl, rfl⟩ := ih
    refine ⟨vs, z, links ++ [⟨o, us, y⟩], hz, ?_, ?_, ?_⟩
    · exact List.forall_mem_append.2 ⟨hlinks, List.forall_mem_singleton.2 ⟨ho, hy⟩⟩
    · simp [Link.tokensOf]
    · simp [Link.treeOf]

end Chained

/-! ## One tree only -/

/-- What a kind of expression reads at the start of tokens, and its tree, are decided where only
tokens of the class `follows` may stand behind it. -/
def Determined (follows : Bytes → Bool) (part : List Bytes → ExprTree → Prop) : Prop :=
  ∀ {ts us rest rest' : List Bytes} {x y : ExprTree}, part ts x → part us y →
    Stops (fun t => !follows t) rest → Stops (fun t => !follows t) rest' →
      ts ++ rest = us ++ rest' → ts = us ∧ x = y

/-- A sign is neither a name nor a number. -/
theorem isAtomic_spelling (o : Operator) : isAtomic o.spelling = false := by
  cases o <;> rfl

/-- Signs are read up to the first name or number, whatever follows. -/
theorem determined_signed : Determined (fun _ => true) IsSigned := by
  intro ts us rest rest' x y hx hy _ _ h
  induction hx generalizing us y with
  | @atom t ht =>
    cases hy with
    | atom hu =>
      obtain ⟨rfl, -⟩ := List.cons.inj h
      exact ⟨rfl, rfl⟩
    | @sign o us y ho hy =>
      obtain ⟨rfl, -⟩ := List.cons.inj h
      rw [isAtomic_spelling] at ht
      cases ht
  | @sign o ts x ho hx ih =>
    cases hy with
    | @atom u hu =>
      obtain ⟨rfl, -⟩ := List.cons.inj h
      rw [isAtomic_spelling] at hu
      cases hu
    | @sign o' us y ho' hy =>
      obtain ⟨hspelling, htail⟩ := List.cons.inj h
      obtain ⟨rfl, rfl⟩ := ih hy htail
      rw [hspelling]
      exact ⟨rfl, rfl⟩

/-- The tokens that may stand behind a part and those that may stand behind a chain of parts: an
operator of the chain is one of the former, and none of the latter. -/
structure Separates (p : Operator → Bool) (follows ends : Bytes → Bool) : Prop where
  operator : ∀ o, p o = true → follows o.spelling = true ∧ ends o.spelling = false
  ends : ∀ t, ends t = true → follows t = true

section

variable {p : Operator → Bool} {part : List Bytes → ExprTree → Prop} {follows ends : Bytes → Bool}

theorem stops_tokensOf (hlevel : Separates p follows ends) {links : List Link} {rest : List Bytes}
    (hlinks : Link.AllOf p part links) (hrest : Stops (fun t => !ends t) rest) :
    Stops (fun t => !follows t) (Link.tokensOf links ++ rest) := by
  cases links with
  | nil =>
    intro t ht
    have hends : ends t = true := by simpa using hrest t ht
    simp [hlevel.ends t hends]
  | cons link links =>
    have ho := (hlinks link (List.mem_cons_self ..)).1
    exact stops_cons.2 (by simp [(hlevel.operator _ ho).1])

/-- Where a chain may end, no operator of it stands. -/
theorem ne_tokensOf (hlevel : Separates p follows ends) {link : Link} {links : List Link}
    {rest : List Bytes} (hlinks : Link.AllOf p part (link :: links))
    (hrest : Stops (fun t => !ends t) rest) (rest' : List Bytes) :
    rest ≠ Link.tokensOf (link :: links) ++ rest' := by
  rintro rfl
  have ho := (hlinks link (List.mem_cons_self ..)).1
  have hends : (!ends link.operator.spelling) = false := hrest _ rfl
  rw [(hlevel.operator _ ho).2] at hends
  cases hends

/-- Links are read from the left, one by one. -/
theorem tokensOf_inj (hpart : Determined follows part) (hlevel : Separates p follows ends)
    {links links' : List Link} {rest rest' : List Bytes} (hlinks : Link.AllOf p part links)
    (hlinks' : Link.AllOf p part links') (hrest : Stops (fun t => !ends t) rest)
    (hrest' : Stops (fun t => !ends t) rest')
    (h : Link.tokensOf links ++ rest = Link.tokensOf links' ++ rest') :
    Link.tokensOf links = Link.tokensOf links' ∧
      ∀ x, Link.treeOf x links = Link.treeOf x links' := by
  induction links generalizing links' with
  | nil =>
    cases links' with
    | nil => exact ⟨rfl, fun _ => rfl⟩
    | cons link' links' => exact absurd h (ne_tokensOf hlevel hlinks' hrest rest')
  | cons link links ih =>
    cases links' with
    | nil => exact absurd h.symm (ne_tokensOf hlevel hlinks hrest' rest)
    | cons link' links' =>
      obtain ⟨⟨-, hx⟩, hmore⟩ := List.forall_mem_cons.1 hlinks
      obtain ⟨⟨-, hy⟩, hmore'⟩ := List.forall_mem_cons.1 hlinks'
      simp only [Link.tokensOf_cons, List.cons_append, List.append_assoc] at h
      obtain ⟨hspelling, htail⟩ := List.cons.inj h
      obtain ⟨htokens, htree⟩ := hpart hx hy (stops_tokensOf hlevel hmore hrest)
        (stops_tokensOf hlevel hmore' hrest') htail
      rw [htokens] at htail
      obtain ⟨hsame, htrees⟩ := ih hmore hmore' (List.append_cancel_left htail)
      refine ⟨?_, fun x => ?_⟩
      · rw [Link.tokensOf_cons, Link.tokensOf_cons, hspelling, htokens, hsame]
      · rw [Link.treeOf_cons, Link.treeOf_cons, hspelling, htree, htrees]

/-- A chain of parts is decided if the parts are. -/
theorem determined_chained (hpart : Determined follows part)
    (hlevel : Separates p follows ends) : Determined ends (Chained p part) := by
  intro ts us rest rest' x y hx hy hrest hrest' h
  obtain ⟨vs, v, links, hv, hlinks, rfl, rfl⟩ := hx.exists_links
  obtain ⟨ws, w, links', hw, hlinks', rfl, rfl⟩ := hy.exists_links
  rw [List.append_assoc, List.append_assoc] at h
  obtain ⟨rfl, rfl⟩ := hpart hv hw (stops_tokensOf hlevel hlinks hrest)
    (stops_tokensOf hlevel hlinks' hrest') h
  obtain ⟨htokens, htrees⟩ := tokensOf_inj hpart hlevel hlinks hlinks' hrest hrest'
    (List.append_cancel_left h)
  exact ⟨by rw [htokens], htrees v⟩

end

/-- Whether a token adds or subtracts, or is a sign. -/
def isAdditiveToken (t : Bytes) : Bool :=
  t = Operator.plus.spelling || t = Operator.minus.spelling

theorem determined_product : Determined isAdditiveToken IsProduct := by
  refine determined_chained determined_signed ⟨fun o ho => ⟨rfl, ?_⟩, fun _ _ => rfl⟩
  cases o <;> first | decide | cases ho

theorem determined_sum : Determined (fun _ => false) IsSum := by
  refine determined_chained determined_product ⟨fun o ho => ⟨?_, rfl⟩, fun t ht => ?_⟩
  · cases o <;> first | decide | cases ho
  · cases ht

/-- Tokens are a sum in one way at most. -/
theorem IsSum.unique {ts : List Bytes} {x y : ExprTree} (hx : IsSum ts x) (hy : IsSum ts y) :
    x = y := by
  have hend : Stops (fun _ : Bytes => !false) [] := by simp [Stops]
  exact (determined_sum hx hy hend hend rfl).2

end Target

open Target

/-! ## The trees of programs -/

/-- The tree of a chain, which leans to the left. -/
def Chain.tree {p : Operator → Bool} {α : Type} (part : α → ExprTree) (c : Chain p α) : ExprTree :=
  c.rest.foldl (fun x link => .binary link.1.1.spelling x (part link.2)) (part c.first)

def Operand.tree (u : Operand) : ExprTree :=
  match u.sign with
  | none => .leaf u.primary.lexeme.text
  | some o => .signed o.1.spelling (.leaf u.primary.lexeme.text)

def Term.tree (t : Term) : ExprTree := Chain.tree Operand.tree t

def Expression.tree (e : Expression) : ExprTree := Chain.tree Term.tree e

/-- A chain of a program is a chain of C. -/
theorem Chain.chained {p : Operator → Bool} {α : Type} (c : Chain p α)
    {part : List Bytes → ExprTree → Prop} {tokens : α → List Bytes} {tree : α → ExprTree}
    (hpart : ∀ a, part (tokens a) (tree a)) :
    Chained p part (c.flatten tokens tokens fun o => [o.spelling]) (c.tree tree) := by
  have hlinks : Link.AllOf p part
      (c.rest.map fun link => ⟨link.1.1, tokens link.2, tree link.2⟩) := by
    intro link hlink
    obtain ⟨⟨o, a⟩, -, rfl⟩ := List.mem_map.1 hlink
    exact ⟨o.2, hpart a⟩
  have hchain := (Chained.single (p := p) (hpart c.first)).append_links hlinks
  rw [Link.tokensOf, Link.treeOf, List.flatMap_map, List.foldl_map] at hchain
  exact hchain

theorem Chain.map_flatten {p : Operator → Bool} {α β γ : Type} (c : Chain p α) (f : α → List β)
    (operator : Operator → β) (g : β → γ) :
    (c.flatten f f fun o => [operator o]).map g =
      c.flatten (fun a => (f a).map g) (fun a => (f a).map g) fun o => [g (operator o)] := by
  simp [flatten, List.map_flatMap]

theorem Operand.signed (u : Operand) : IsSigned (u.lexemes.map Lexeme.text) u.tree := by
  obtain ⟨sign, x⟩ := u
  cases sign with
  | none => exact .atom x.isAtomic_text
  | some o => exact .sign o.2 (.atom x.isAtomic_text)

theorem Term.product (t : Term) : IsProduct (t.lexemes.map Lexeme.text) t.tree := by
  rw [Term.lexemes, Chain.map_flatten]
  exact Chain.chained t Operand.signed

/-- The tokens of an expression have its tree, and no other. -/
theorem Expression.sum_iff (e : Expression) {x : ExprTree} :
    IsSum (e.lexemes.map Lexeme.text) x ↔ x = e.tree := by
  have htree : IsSum (e.lexemes.map Lexeme.text) e.tree := by
    rw [Expression.lexemes, Chain.map_flatten]
    exact Chain.chained e Term.product
  constructor
  · intro hx
    exact hx.unique htree
  · rintro rfl
    exact htree

/-! ## The expressions of an accepted source -/

/-- C reads the lexemes of a part in its code. -/
theorem Part.split_emissions (part : Part) :
    split (Emission.bodyOf part.emissions) = part.lexemes.map Lexeme.text := by
  cases part with
  | value e =>
    have hsplit := @Expression.split_text false e [] (by simp [Stops])
    rw [List.append_nil] at hsplit
    exact hsplit.trans (List.append_nil _)
  | condition c =>
    show split (Emission.bodyOf c.emissions) = _
    rw [c.bodyOf_emissions, c.split_text]
    rfl

/-- The lexemes of an accepted source are those of a program. Wherever an expression or a condition
stands in it, its code is emitted as its tokens are read, behind nothing but what opens the code
around it, and stands there in the code of the source; and C splits it into the texts of these
tokens. For an expression, the grammar of C has one tree for the tokens, which is the tree of the
derivation. -/
theorem Run.expressions_read_alike (bound : Option Nat) (file source : Bytes)
    (haccepted : (ofSource bound file source).failure = none) :
    (∃ p : Program, p.lexemes = (scan file source).tokens.map Token.toLexeme) ∧
      ∀ p : Program, p.lexemes = (scan file source).tokens.map Token.toLexeme →
        ∀ front part, p.body.Holds front part →
          ∃ before tokens after lead later,
            (scan file source).tokens = before ++ (tokens ++ after) ∧
            before.map Token.toLexeme = List.replicate p.blank .newline ++ front ∧
            tokens.map Token.toLexeme = part.lexemes ∧
            Part.IsLead lead ∧
            (State.start.steps bound (before ++ tokens)).emissions =
              (State.start.steps bound before).emissions ++ (lead ++ part.emissions) ∧
            (ofSource bound file source).emissions =
              (State.start.steps bound before).emissions ++ (lead ++ (part.emissions ++ later)) ∧
            split (Emission.bodyOf part.emissions) = tokens.map (fun t => t.text) ∧
            ∀ e, part = .value e →
              ∀ x, IsSum (tokens.map fun t => t.text) x ↔ x = e.tree := by
  refine ⟨exists_program haccepted, fun p hp front part h => ?_⟩
  obtain ⟨before, tokens, after, lead, later, htokens, hbefore, hpart, hlead, hemitted, hlater⟩ :=
    emissions_of_part haccepted hp h
  have htexts : tokens.map (fun t => t.text) = part.lexemes.map Lexeme.text := by
    rw [← hpart, List.map_map]
    rfl
  refine ⟨before, tokens, after, lead, later, htokens, hbefore, hpart, hlead, hemitted, ?_, ?_, ?_⟩
  · rw [hlater, hemitted, List.append_assoc, List.append_assoc]
  · rw [htexts, part.split_emissions]
  · rintro e rfl x
    rw [htexts]
    exact e.sum_iff

/-- An expression with two minus signs, inside a block: one takes away, the other is a sign. -/
theorem Run.expressions_read_alike_of_signs :
    let source := bytes "LET a = 1\nIF a < 2 THEN\nPRINT a - -1 * 2\nENDIF"
    (∃ early code later, (ofSource none [] source).emissions = early ++ (code ++ later) ∧
        Emission.bodyOf code = bytes "a- -1*2" ∧
        split (Emission.bodyOf code) =
          [bytes "a", bytes "-", bytes "-", bytes "1", bytes "*", bytes "2"]) ∧
      ∀ x, IsSum [bytes "a", bytes "-", bytes "-", bytes "1", bytes "*", bytes "2"] x ↔
        x = .binary (bytes "-") (.leaf (bytes "a"))
          (.binary (bytes "*") (.signed (bytes "-") (.leaf (bytes "1"))) (.leaf (bytes "2"))) := by
  intro source
  let a : Identifier := ⟨bytes "a", by decide⟩
  let one : Primary := .number ⟨bytes "1", by decide⟩
  let two : Primary := .number ⟨bytes "2", by decide⟩
  let value : Expression := .add ⟨none, .reference a⟩ ⟨.minus, rfl⟩
    (.multiply ⟨some ⟨.minus, rfl⟩, one⟩ ⟨.times, rfl⟩ (.ofOperand ⟨none, two⟩))
  let condition : Condition := ⟨⟨.ofOperand ⟨none, .reference a⟩,
    [(⟨.less, rfl⟩, .ofOperand ⟨none, two⟩)]⟩, by simp⟩
  let inner : Statements := .simple (.printValue false value) 0 .nil
  let tree : Program :=
    ⟨0, .simple (.assignment a (.ofOperand ⟨none, one⟩)) 0
      (.block .conditional condition 0 inner 0 .nil)⟩
  obtain ⟨-, hparts⟩ := Run.expressions_read_alike none [] source (by decide +kernel)
  obtain ⟨before, tokens, after, lead, later, -, -, htokens, -, -, hcode, hsplit, htree⟩ :=
    hparts tree (by decide +kernel) _ (.value value)
      (.later _ 0 (.inside .conditional condition 0 0 .nil (.print false value 0 .nil)))
  have htexts : tokens.map (fun t => t.text) =
      [bytes "a", bytes "-", bytes "-", bytes "1", bytes "*", bytes "2"] := by
    have hmap := congrArg (List.map Lexeme.text) htokens
    rw [List.map_map] at hmap
    exact hmap.trans (by decide +kernel)
  rw [htexts] at hsplit htree
  rw [← List.append_assoc] at hcode
  exact ⟨⟨_, _, _, hcode, by decide +kernel, hsplit⟩, fun x => htree value rfl x⟩

end Teeny
