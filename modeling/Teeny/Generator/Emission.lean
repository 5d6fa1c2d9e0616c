import Teeny.Delivery

/-!
# Generated code

Code is generated in two parts: a header, which takes whole lines only and holds the declarations,
and a body. An `Emission` adds one piece to one of them. A `CodeBuffer` collects the parts until it
is finalized, which delivers the header and then the body, and happens at most once.
-/

namespace Teeny

/-- One piece of generated code. -/
inductive Emission where
  /-- A line of the header. -/
  | header (text : Bytes)
  /-- A piece of a line of the body. -/
  | code (text : Bytes)
  /-- The rest of a line of the body. -/
  | line (text : Bytes)
  deriving DecidableEq

namespace Emission

/-- What an emission adds to the header. -/
def headerText : Emission → Bytes
  | header text => Bytes.line text
  | code _ | line _ => []

/-- What an emission adds to the body. -/
def bodyText : Emission → Bytes
  | header _ => []
  | code text => text
  | line text => Bytes.line text

end Emission

/-- The code collected so far. -/
structure CodeBuffer where
  header : Bytes
  body : Bytes
  finalized : Bool
  deriving DecidableEq

/-- Why a buffer cannot be finalized. -/
inductive FinalizeError where
  /-- It has been finalized before. -/
  | finalized
  /-- The receiver refused a part. -/
  | refused
  deriving DecidableEq

namespace FinalizeError

/-- The reason in words. -/
def message : FinalizeError → Bytes
  | finalized => bytes "codegen: output already finalized"
  | refused => bytes "write limit reached"

end FinalizeError

namespace CodeBuffer

/-- The buffer that holds nothing. -/
def empty : CodeBuffer := ⟨[], [], false⟩

/-- Adds emissions in order. -/
def add (b : CodeBuffer) (es : List Emission) : CodeBuffer :=
  { b with
    header := b.header ++ es.flatMap Emission.headerText
    body := b.body ++ es.flatMap Emission.bodyText }

/-- The number of bytes collected. -/
def size (b : CodeBuffer) : Nat := b.header.length + b.body.length

/-- The parts in the order of their delivery. -/
def pieces (b : CodeBuffer) : List Bytes := [b.header, b.body]

/-- Delivers the code to a receiver with the given room. A buffer counts as finalized from then on,
also if the receiver refused a part of it. -/
def finalize (b : CodeBuffer) (room : Option Int) : CodeBuffer × Bytes × Option FinalizeError :=
  if b.finalized then (b, [], some .finalized)
  else
    let delivery := Delivery.offer room b.pieces
    ({ b with finalized := true }, delivery.received,
      if delivery.complete then none else some .refused)

theorem add_append (b : CodeBuffer) (es fs : List Emission) :
    b.add (es ++ fs) = (b.add es).add fs := by
  simp [add]

end CodeBuffer

end Teeny
