import Teeny.Delivery

/-!
# What a limited receiver takes

`Delivery.offer` hands over pieces until one is refused. The pieces that were taken are a list of
their own (`taken`): a beginning of those offered (`taken_isPrefix`), and the longest that there is
room for (`prefix_taken_iff`). A piece behind the first one that is refused is never taken, even if
there is room for it, since it ends no beginning that fits.
-/

namespace Teeny.Delivery

/-! ## Room -/

theorem fits_iff {room : Option Int} {n : Nat} :
    fits room n = true ↔ ∀ limit ∈ room, (n : Int) ≤ limit := by
  cases room with
  | none => simp [fits]
  | some r => simp [fits]

theorem fits_of_le {room : Option Int} {m n : Nat} (h : m ≤ n) (hn : fits room n = true) :
    fits room m = true := by
  cases room with
  | none => rfl
  | some r =>
    have hr : (n : Int) ≤ r := of_decide_eq_true hn
    exact decide_eq_true (by omega)

/-- A second piece fits where both together do. -/
theorem fits_sub (room : Option Int) (m n : Nat) :
    fits (room.map (· - m)) n = fits room (m + n) := by
  cases room with
  | none => rfl
  | some r =>
    refine decide_eq_decide.2 ?_
    show (n : Int) ≤ r - m ↔ ((m + n : Nat) : Int) ≤ r
    omega

/-! ## Pieces that are taken -/

/-- The pieces that a receiver with the given room takes. -/
def taken : Option Int → List Bytes → List Bytes
  | _, [] => []
  | room, piece :: pieces =>
    if fits room piece.length then piece :: taken (room.map (· - piece.length)) pieces else []

variable {room : Option Int}

theorem taken_cons_of_fits {piece : Bytes} (pieces : List Bytes)
    (h : fits room piece.length = true) :
    taken room (piece :: pieces) = piece :: taken (room.map (· - piece.length)) pieces := by
  rw [taken, if_pos h]

theorem taken_cons_of_not_fits {piece : Bytes} (pieces : List Bytes)
    (h : fits room piece.length = false) : taken room (piece :: pieces) = [] := by
  rw [taken, if_neg (by simp [h])]

theorem taken_isPrefix (room : Option Int) (pieces : List Bytes) :
    taken room pieces <+: pieces := by
  induction pieces generalizing room with
  | nil => exact List.prefix_refl _
  | cons piece pieces ih =>
    cases hfits : fits room piece.length with
    | true =>
      rw [taken_cons_of_fits pieces hfits]
      exact (List.prefix_cons_inj piece).2 (ih _)
    | false =>
      rw [taken_cons_of_not_fits pieces hfits]
      exact List.nil_prefix

/-- What arrives is the pieces that are taken, and it is complete if these are all. -/
theorem offer_eq_taken (room : Option Int) (pieces : List Bytes) :
    offer room pieces = ⟨(taken room pieces).flatten, decide (taken room pieces = pieces)⟩ := by
  induction pieces generalizing room with
  | nil => rfl
  | cons piece pieces ih =>
    cases hfits : fits room piece.length with
    | true =>
      rw [offer_cons_of_fits pieces hfits, taken_cons_of_fits pieces hfits, ih]
      simp
    | false =>
      rw [offer_cons_of_not_fits pieces hfits, taken_cons_of_not_fits pieces hfits]
      rfl

/-- A beginning of the pieces is taken exactly if there is room for it, or nothing is in it. -/
theorem prefix_taken_iff {front pieces : List Bytes} (h : front <+: pieces) :
    front <+: taken room pieces ↔ front = [] ∨ fits room front.flatten.length = true := by
  induction pieces generalizing room front with
  | nil => simp [List.prefix_nil.1 h]
  | cons piece pieces ih =>
    cases front with
    | nil => simp
    | cons first front =>
      obtain ⟨rfl, hfront⟩ := List.cons_prefix_cons.1 h
      rw [List.flatten_cons, List.length_append]
      cases hfits : fits room first.length with
      | true =>
        rw [taken_cons_of_fits pieces hfits, List.prefix_cons_inj, ih hfront, fits_sub]
        -- an empty rest needs no room beside the first piece
        constructor
        · rintro (rfl | hrest)
          · exact Or.inr hfits
          · exact Or.inr hrest
        · rintro (hnil | hrest)
          · cases hnil
          · exact Or.inr hrest
      | false =>
        rw [taken_cons_of_not_fits pieces hfits]
        constructor
        · intro hnil
          cases List.prefix_nil.1 hnil
        · rintro (hnil | hboth)
          · cases hnil
          · rw [fits_of_le (Nat.le_add_right ..) hboth] at hfits
            cases hfits

/-- All pieces are taken exactly if there is room for them together. -/
theorem taken_eq_iff {pieces : List Bytes} (h : pieces ≠ []) :
    taken room pieces = pieces ↔ fits room pieces.flatten.length = true := by
  have hall : pieces <+: taken room pieces ↔ pieces = [] ∨ fits room pieces.flatten.length = true :=
    prefix_taken_iff (List.prefix_refl pieces)
  constructor
  · intro htaken
    exact (hall.1 ⟨[], by rw [htaken, List.append_nil]⟩).resolve_left h
  · intro hfits
    exact (taken_isPrefix room pieces).eq_of_length_le (hall.2 (Or.inr hfits)).length_le

end Teeny.Delivery
