import Teeny.Text.Bytes

/-!
# Delivery of output

Output is offered to its receiver in pieces. A receiver may have a limit on the number of bytes it
takes in all; it takes a piece whole or refuses it, and after the first refusal nothing more is
offered. What arrives is therefore always the pieces up to some point.
-/

namespace Teeny

/-- What a receiver took, and whether that was everything. -/
structure Delivery where
  received : Bytes
  complete : Bool
  deriving DecidableEq

namespace Delivery

/-- Whether a receiver with this much room takes a piece of `n` bytes. -/
def fits (room : Option Int) (n : Nat) : Bool :=
  match room with
  | none => true
  | some r => (n : Int) ≤ r

/-- Offers the pieces in order to a receiver with the given room; no room given is no limit. -/
def offer : Option Int → List Bytes → Delivery
  | _, [] => ⟨[], true⟩
  | room, piece :: pieces =>
    if fits room piece.length then
      let later := offer (room.map (· - piece.length)) pieces
      ⟨piece ++ later.received, later.complete⟩
    else ⟨[], false⟩

@[simp] theorem offer_nil (room : Option Int) : offer room [] = ⟨[], true⟩ := rfl

/-- A piece that fits is taken, and the rest has that much less room. -/
theorem offer_cons_of_fits {room : Option Int} {piece : Bytes} (pieces : List Bytes)
    (h : fits room piece.length = true) :
    offer room (piece :: pieces) =
      ⟨piece ++ (offer (room.map (· - piece.length)) pieces).received,
        (offer (room.map (· - piece.length)) pieces).complete⟩ := by
  rw [offer, if_pos h]

/-- A piece that does not fit is the last one offered. -/
theorem offer_cons_of_not_fits {room : Option Int} {piece : Bytes} (pieces : List Bytes)
    (h : fits room piece.length = false) : offer room (piece :: pieces) = ⟨[], false⟩ := by
  rw [offer, if_neg (by simp [h])]

/-- A receiver without a limit takes everything. -/
theorem offer_none (pieces : List Bytes) : offer none pieces = ⟨pieces.flatten, true⟩ := by
  induction pieces with
  | nil => rfl
  | cons piece pieces ih => simp [offer, fits, ih]

end Delivery

end Teeny
