import Bunzip.MoveToFront
import Mathlib.Data.List.Perm.Basic

/-!
# Positions in a moving table

A position of the table leads to a table of the same bytes (`mem_move`), so the positions of a list
name one byte of the table each (`length_decode`, `mem_of_mem_decode`), and the positions that are
written for bytes of the table are positions of it (`lt_of_mem_encode`). However often it is used,
the table is a permutation of itself (`foldl_turn_perm`), and what stands behind all positions that
were used is where it was (`foldl_turn_below`).
-/

namespace Bunzip.MoveToFront

variable {order : List UInt8} {position : Nat} {byte other : UInt8}

theorem length_move (h : position < order.length) :
    (byte :: order.eraseIdx position).length = order.length := by
  rw [List.length_cons, List.length_eraseIdx_of_lt h]
  omega

theorem mem_of_mem_move (hbyte : order[position]? = some byte)
    (h : other ∈ byte :: order.eraseIdx position) : other ∈ order := by
  rcases List.mem_cons.1 h with rfl | hmem
  · exact List.mem_of_getElem? hbyte
  · exact List.mem_of_mem_eraseIdx hmem

/-- No byte is lost from the table. -/
theorem mem_move (h : other ∈ order) : other ∈ byte :: order.eraseIdx (order.idxOf byte) := by
  rw [← List.erase_eq_eraseIdx_of_idxOf rfl]
  by_cases heq : other = byte
  · rw [heq]
    exact List.mem_cons_self
  · exact List.mem_cons_of_mem _ ((List.mem_erase_of_ne heq).2 h)

theorem length_decode {positions : List Nat} (h : ∀ position ∈ positions, position < order.length) :
    (decode order positions).length = positions.length := by
  induction positions generalizing order with
  | nil => rfl
  | cons position positions ih =>
    have hlt := h position List.mem_cons_self
    rw [decode, List.getElem?_eq_getElem hlt, List.length_cons, List.length_cons, ih]
    intro other hother
    rw [length_move hlt]
    exact h other (List.mem_cons_of_mem _ hother)

theorem mem_of_mem_decode {positions : List Nat} (h : byte ∈ decode order positions) :
    byte ∈ order := by
  induction positions generalizing order with
  | nil => cases h
  | cons position positions ih =>
    rw [decode] at h
    split at h
    · cases h
    · rename_i first hfirst
      rcases List.mem_cons.1 h with rfl | hmem
      · exact List.mem_of_getElem? hfirst
      · exact mem_of_mem_move hfirst (ih hmem)

/-- The table after a position was used; a position that it lacks changes nothing. -/
def turn (order : List UInt8) (position : Nat) : List UInt8 :=
  match order[position]? with
  | some byte => byte :: order.eraseIdx position
  | none => order

theorem turn_of_getElem? (h : order[position]? = some byte) :
    turn order position = byte :: order.eraseIdx position := by
  rw [turn, h]

theorem length_turn (order : List UInt8) (position : Nat) :
    (turn order position).length = order.length := by
  unfold turn
  split
  · exact length_move (List.getElem?_eq_some_iff.1 ‹_›).1
  · rfl

theorem length_foldl_turn (order : List UInt8) (positions : List Nat) :
    (positions.foldl turn order).length = order.length := by
  induction positions generalizing order with
  | nil => rfl
  | cons position positions ih => rw [List.foldl_cons, ih, length_turn]

theorem turn_perm (order : List UInt8) (position : Nat) : (turn order position).Perm order := by
  unfold turn
  split
  · rename_i byte hbyte
    obtain ⟨hlt, rfl⟩ := List.getElem?_eq_some_iff.1 hbyte
    exact List.getElem_cons_eraseIdx_perm hlt
  · exact .rfl

/-- No use of the table loses a byte, or names it twice. -/
theorem foldl_turn_perm (order : List UInt8) (positions : List Nat) :
    (positions.foldl turn order).Perm order := by
  induction positions generalizing order with
  | nil => exact .rfl
  | cons position positions ih =>
    rw [List.foldl_cons]
    exact (ih _).trans (turn_perm order position)

theorem turn_append {front : List UInt8} (h : position < front.length) (back : List UInt8) :
    turn (front ++ back) position = turn front position ++ back := by
  have hbyte := List.getElem?_eq_getElem h
  rw [turn_of_getElem? hbyte, turn_of_getElem? ((List.getElem?_append_left h).trans hbyte),
    List.eraseIdx_append_of_lt_length h, List.cons_append]

/-- Positions in the front of the table leave the rest of it alone. -/
theorem foldl_turn_append {front : List UInt8} {positions : List Nat}
    (h : ∀ position ∈ positions, position < front.length) (back : List UInt8) :
    positions.foldl turn (front ++ back) = positions.foldl turn front ++ back := by
  induction positions generalizing front with
  | nil => rfl
  | cons position positions ih =>
    rw [List.foldl_cons, List.foldl_cons, turn_append (h position List.mem_cons_self), ih]
    intro other hother
    rw [length_turn]
    exact h other (List.mem_cons_of_mem _ hother)

/-- Positions below `m` permute the first `m` bytes, and leave the others where they are. -/
theorem foldl_turn_below (order : List UInt8) {positions : List Nat} {m : Nat}
    (h : ∀ position ∈ positions, position < m) :
    ((positions.foldl turn order).take m).Perm (order.take m) ∧
      (positions.foldl turn order).drop m = order.drop m := by
  rcases Nat.le_total order.length m with hle | hle
  · rw [List.take_of_length_le hle, List.drop_eq_nil_of_le hle, List.take_of_length_le,
      List.drop_eq_nil_of_le]
    · exact ⟨foldl_turn_perm order positions, rfl⟩
    all_goals rwa [length_foldl_turn]
  · have hfront : (order.take m).length = m := List.length_take_of_le hle
    have hsplit : positions.foldl turn order =
        positions.foldl turn (order.take m) ++ order.drop m := by
      rw [← foldl_turn_append (hfront.symm ▸ h), List.take_append_drop]
    have hlength : (positions.foldl turn (order.take m)).length = m := by
      rw [length_foldl_turn, hfront]
    rw [hsplit, List.take_left' hlength, List.drop_left' hlength]
    exact ⟨foldl_turn_perm _ positions, rfl⟩

theorem decode_append {front : List Nat} (h : ∀ position ∈ front, position < order.length)
    (back : List Nat) :
    decode order (front ++ back) = decode order front ++ decode (front.foldl turn order) back := by
  induction front generalizing order with
  | nil => rfl
  | cons position front ih =>
    have hlt := h position List.mem_cons_self
    have hbyte := List.getElem?_eq_getElem hlt
    rw [List.cons_append, decode, decode, List.foldl_cons, turn_of_getElem? hbyte, hbyte]
    simp only [List.cons_append]
    rw [ih fun other hother => by
      rw [length_move hlt]
      exact h other (List.mem_cons_of_mem _ hother)]

theorem length_encode (order bytes : List UInt8) : (encode order bytes).length = bytes.length := by
  induction bytes generalizing order with
  | nil => rfl
  | cons byte bytes ih => rw [encode, List.length_cons, List.length_cons, ih]

theorem lt_of_mem_encode {bytes : List UInt8} (h : ∀ byte ∈ bytes, byte ∈ order)
    (hposition : position ∈ encode order bytes) : position < order.length := by
  induction bytes generalizing order with
  | nil => cases hposition
  | cons byte bytes ih =>
    have hlt := List.idxOf_lt_length_of_mem (h byte List.mem_cons_self)
    rcases List.mem_cons.1 hposition with rfl | hmem
    · exact hlt
    · rw [← length_move hlt]
      exact ih (fun other hother => mem_move (h other (List.mem_cons_of_mem _ hother))) hmem

end Bunzip.MoveToFront
