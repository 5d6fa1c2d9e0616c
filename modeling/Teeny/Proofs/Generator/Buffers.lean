import Teeny.Generator.Calls
import Teeny.Proofs.Grammar.Declarations
import Teeny.Proofs.Text.Delivery

/-!
# One buffer, many calls

A code buffer takes calls in any order and any number of times, and `CodeBuffer.answers` is what is
seen of them. What a buffer holds after them is told by the calls alone (`callAll_empty`): their
header lines, their body text, and whether one of them finalized it.

So the first finalization delivers the header and then the body, as far as the receiver takes them,
each later one delivers nothing, and how header and body were interleaved before does not matter
(`CodeBuffer.finalized_once`).
-/

namespace Teeny

namespace Emission

/-- The header is made of the header lines. -/
theorem headerOf_filter (es : List Emission) : headerOf (es.filter isHeader) = headerOf es := by
  induction es with
  | nil => rfl
  | cons e es ih =>
    cases e with
    | header text => exact congrArg (Bytes.line text ++ ·) ih
    | code text => exact ih
    | line text => exact ih

/-- The body is made of all else. -/
theorem bodyOf_filter (es : List Emission) :
    bodyOf (es.filter fun e => !e.isHeader) = bodyOf es := by
  induction es with
  | nil => rfl
  | cons e es ih =>
    cases e with
    | header text => exact ih
    | code text => exact congrArg (text ++ ·) ih
    | line text => exact congrArg (Bytes.line text ++ ·) ih

end Emission

/-! ## Delivery of a header and a body -/

namespace Delivery

variable {room : Option Int} {header body : Bytes}

theorem offer_both (h : fits room (header.length + body.length) = true) :
    offer room [header, body] = ⟨header ++ body, true⟩ := by
  have hheader := fits_of_le (Nat.le_add_right ..) h
  rw [offer_cons_of_fits _ hheader, offer_cons_of_fits _ (by rw [fits_sub]; exact h), offer_nil,
    List.append_nil]

theorem offer_header (h : fits room header.length = true)
    (hboth : fits room (header.length + body.length) = false) :
    offer room [header, body] = ⟨header, false⟩ := by
  rw [offer_cons_of_fits _ h, offer_cons_of_not_fits _ (by rw [fits_sub]; exact hboth),
    List.append_nil]

end Delivery

namespace CodeBuffer

/-! ## Calls -/

namespace Call

/-- The code that a call adds. -/
def emissions : Call → List Emission
  | emit e => [e]
  | generate bound file source => (Run.ofSource bound file source).emissions
  | finalize _ => []

/-- Whether a call finalizes the buffer. -/
def isFinalize : Call → Bool
  | finalize _ => true
  | emit _ | generate _ _ _ => false

/-- The header lines of some calls. -/
def headerOf (calls : List Call) : Bytes := Emission.headerOf (calls.flatMap emissions)

/-- The body text of some calls. -/
def bodyOf (calls : List Call) : Bytes := Emission.bodyOf (calls.flatMap emissions)

/-- The number of bytes of the header lines and the body text of some calls. -/
def size (calls : List Call) : Nat := (headerOf calls).length + (bodyOf calls).length

/-- What a receiver takes of the code of some calls: the header and the body if it has room for
both, the header alone if it has room for that only, and nothing if it has not. -/
def delivery (room : Option Int) (calls : List Call) : Bytes × Option FinalizeError :=
  if Delivery.fits room (size calls) then (headerOf calls ++ bodyOf calls, none)
  else if Delivery.fits room (headerOf calls).length then (headerOf calls, some .refused)
  else ([], some .refused)

theorem size_concat_finalize (calls : List Call) (room : Option Int) :
    size (calls ++ [finalize room]) = size calls := by
  simp [size, headerOf, bodyOf, emissions]

/-- That is what comes of offering it the header and then the body. -/
theorem delivery_eq (room : Option Int) (calls : List Call) :
    delivery room calls =
      ((Delivery.offer room [headerOf calls, bodyOf calls]).received,
        if (Delivery.offer room [headerOf calls, bodyOf calls]).complete then none
        else some .refused) := by
  unfold delivery
  cases hboth : Delivery.fits room (size calls) with
  | true =>
    rw [Delivery.offer_both hboth]
    rfl
  | false =>
    cases hheader : Delivery.fits room (headerOf calls).length with
    | true =>
      rw [Delivery.offer_header hheader hboth]
      rfl
    | false =>
      rw [Delivery.offer_cons_of_not_fits _ hheader]
      rfl

end Call

/-- The buffer after some calls. -/
def callAll (b : CodeBuffer) (calls : List Call) : CodeBuffer :=
  calls.foldl (fun b c => (b.call c).1) b

variable {b : CodeBuffer}

theorem answers_append (front rest : List Call) :
    b.answers (front ++ rest) = b.answers front ++ (b.callAll front).answers rest := by
  induction front generalizing b with
  | nil => rfl
  | cons c front ih => exact congrArg (List.cons _) ih

theorem length_answers (calls : List Call) : (b.answers calls).length = calls.length := by
  induction calls generalizing b with
  | nil => rfl
  | cons c calls ih => exact congrArg (· + 1) ih

/-! ## What a buffer holds -/

/-- A call adds its code and nothing else, and a buffer that is finalized stays so. -/
theorem call_fst (c : Call) :
    (b.call c).1 = { b.add c.emissions with finalized := b.finalized || c.isFinalize } := by
  cases c with
  | emit e => simp [call, add, Call.emissions, Call.isFinalize]
  | generate bound file source => simp [call, add, Call.emissions, Call.isFinalize]
  | finalize room =>
    obtain ⟨header, body, finalized⟩ := b
    cases finalized <;> simp [call, add, finalize, Call.emissions, Call.isFinalize]

/-- After its calls a buffer holds their header lines and their body text. -/
theorem callAll_eq (calls : List Call) :
    b.callAll calls =
      ⟨b.header ++ Call.headerOf calls, b.body ++ Call.bodyOf calls,
        b.finalized || calls.any Call.isFinalize⟩ := by
  induction calls generalizing b with
  | nil => simp [callAll, Call.headerOf, Call.bodyOf]
  | cons c calls ih =>
    show (b.call c).1.callAll calls = _
    rw [ih, call_fst]
    simp [add, Call.headerOf, Call.bodyOf, Emission.headerOf, Emission.bodyOf, Bool.or_assoc]

theorem callAll_empty (calls : List Call) :
    empty.callAll calls =
      ⟨Call.headerOf calls, Call.bodyOf calls, calls.any Call.isFinalize⟩ :=
  callAll_eq calls

/-- The answer to a call is given by the buffer after the calls before it. -/
theorem getElem?_answers (before after : List Call) (c : Call) :
    (b.answers (before ++ c :: after))[before.length]? = some ((b.callAll before).call c).2 := by
  rw [answers_append, List.getElem?_append_right (Nat.le_of_eq (length_answers before)),
    length_answers, Nat.sub_self]
  rfl

/-- The size in the answer is that of all calls so far. -/
theorem size_answer (before : List Call) (c : Call) :
    ((empty.callAll before).call c).2.size = Call.size (before ++ [c]) := by
  have hsize : ((empty.callAll before).call c).2.size = ((empty.callAll before).call c).1.size := by
    cases c <;> rfl
  have hlast : ((empty.callAll before).call c).1 = empty.callAll (before ++ [c]) := by
    simp [callAll]
  rw [hsize, hlast, callAll_empty]
  rfl

/-- A finalized buffer is not finalized again. -/
theorem delivered_of_finalized (room : Option Int) (h : b.finalized = true) :
    (b.call (.finalize room)).2.delivered = some ([], some .finalized) := by
  simp [call, finalize, h]

/-- Else the header and the body are offered to the receiver, in this order. -/
theorem delivered_of_open (room : Option Int) (h : b.finalized = false) :
    (b.call (.finalize room)).2.delivered =
      some ((Delivery.offer room [b.header, b.body]).received,
        if (Delivery.offer room [b.header, b.body]).complete then none else some .refused) := by
  simp only [call, finalize, h]
  rfl

/-! ## Calls in another order -/

/-- Calls with the same header lines and the same pieces of the body, in the same order each, leave
the same buffer. -/
theorem callAll_eq_of_filter {front front' : List Call}
    (hopen : front.any Call.isFinalize = front'.any Call.isFinalize)
    (hheader : (front.flatMap Call.emissions).filter Emission.isHeader =
      (front'.flatMap Call.emissions).filter Emission.isHeader)
    (hbody : (front.flatMap Call.emissions).filter (fun e => !e.isHeader) =
      (front'.flatMap Call.emissions).filter fun e => !e.isHeader) :
    b.callAll front = b.callAll front' := by
  have hheaders : Call.headerOf front = Call.headerOf front' := by
    rw [Call.headerOf, ← Emission.headerOf_filter, hheader, Emission.headerOf_filter]
    rfl
  have hbodies : Call.bodyOf front = Call.bodyOf front' := by
    rw [Call.bodyOf, ← Emission.bodyOf_filter, hbody, Emission.bodyOf_filter]
    rfl
  rw [callAll_eq, callAll_eq, hheaders, hbodies, hopen]

/-- After each of any calls on an empty buffer, its size is that of all header lines and body text
so far, which a finalization does not change. The first finalization delivers the header and the
body of the calls before it, as far as there is room. Every later one delivers nothing, for the
reason that it is not the first. Until then, calls may change places as long as header lines and
pieces of the body each stay in order: what is seen afterwards is the same. -/
theorem finalized_once (calls : List Call) :
    (∀ before c after, calls = before ++ c :: after →
      ∃ answer, (empty.answers calls)[before.length]? = some answer ∧
        answer.size = Call.size (before ++ [c]) ∧
        ∀ room, c = .finalize room →
          answer.size = Call.size before ∧
          (before.any Call.isFinalize = false →
            answer.delivered = some (Call.delivery room before)) ∧
          (before.any Call.isFinalize = true →
            answer.delivered = some ([], some .finalized))) ∧
      ∀ front front' rest : List Call, front.any Call.isFinalize = false →
        front'.any Call.isFinalize = false →
        (front.flatMap Call.emissions).filter Emission.isHeader =
          (front'.flatMap Call.emissions).filter Emission.isHeader →
        (front.flatMap Call.emissions).filter (fun e => !e.isHeader) =
          (front'.flatMap Call.emissions).filter (fun e => !e.isHeader) →
        (empty.answers (front ++ rest)).drop front.length =
          (empty.answers (front' ++ rest)).drop front'.length := by
  constructor
  · intro before c after hcalls
    subst hcalls
    refine ⟨_, getElem?_answers before after c, size_answer before c, ?_⟩
    rintro room rfl
    refine ⟨?_, ?_, ?_⟩
    · rw [size_answer, Call.size_concat_finalize]
    · intro hopen
      rw [callAll_empty, delivered_of_open room hopen]
      exact congrArg some (Call.delivery_eq room before).symm
    · intro hfinalized
      rw [callAll_empty, delivered_of_finalized room hfinalized]
  · intro front front' rest hfront hfront' hheader hbody
    rw [answers_append, answers_append, ← length_answers (b := empty) front,
      ← length_answers (b := empty) front', List.drop_left, List.drop_left,
      callAll_eq_of_filter (hfront.trans hfront'.symm) hheader hbody]

/-- There is room for the header and not for the body, so the header alone is delivered. A program
that is generated afterwards is held and no more delivered. The body might as well have come behind
the header. -/
theorem finalized_once_of_short_room :
    let front : List Call := [.emit (.code (bytes "x")), .emit (.header (bytes "h"))]
    let calls := front ++
      [.finalize (some 2), .generate none [] (bytes "LABEL a\nLET"), .finalize none]
    (∃ answer, (empty.answers calls)[2]? = some answer ∧ answer.size = 3 ∧
        answer.delivered = some (bytes "h\n", some .refused)) ∧
      (∃ answer, (empty.answers calls)[4]? = some answer ∧ answer.size = 43 ∧
        answer.delivered = some ([], some .finalized)) ∧
      (empty.answers (front ++ [.finalize (some 3)])).drop 2 =
        (empty.answers (front.reverse ++ [.finalize (some 3)])).drop 2 := by
  intro front calls
  obtain ⟨hanswers, horder⟩ := finalized_once calls
  obtain ⟨first, hfirst, hsize, hdelivered⟩ := hanswers front _ _ rfl
  obtain ⟨last, hlast, hsize', hdelivered'⟩ :=
    hanswers (front ++ [.finalize (some 2), .generate none [] (bytes "LABEL a\nLET")]) _ [] rfl
  refine ⟨⟨first, hfirst, ?_, ?_⟩, ⟨last, hlast, ?_, ?_⟩, ?_⟩
  · rw [hsize]
    decide +kernel
  · rw [(hdelivered _ rfl).2.1 rfl]
    decide +kernel
  · rw [hsize']
    decide +kernel
  · exact (hdelivered' _ rfl).2.2 rfl
  · exact horder front front.reverse [.finalize (some 3)] rfl rfl (by decide) (by decide)

end CodeBuffer

end Teeny
