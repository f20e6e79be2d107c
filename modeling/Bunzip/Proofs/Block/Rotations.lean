import Bunzip.Proofs.Block.Places

/-!
# The square of sorted rotations

The rows of the square, taken in the order of the sorted places of the last column and each turned
by one byte, are the rows again (`map_turn_sortedPlaces`): turning does not change the set of rows,
and it keeps the order of rows that end in the same byte. So the place that a row sorts to is the
row that begins one byte later, and following the places gives the sequence back
(`unsort_lastColumn`).
-/

namespace Bunzip.Block.Rotations

variable {bytes : List UInt8} {i pointer : Nat}

def rotation (bytes : List UInt8) (i : Nat) : List UInt8 := bytes.drop i ++ bytes.take i

/-- The row that begins one byte earlier: the last byte comes first. -/
def turn (row : List UInt8) : List UInt8 := row.getLastD 0 :: row.dropLast

@[simp] theorem length_rotation (bytes : List UInt8) (i : Nat) :
    (rotation bytes i).length = bytes.length := by
  simp [rotation]
  omega

theorem rotation_zero (bytes : List UInt8) : rotation bytes 0 = bytes := by simp [rotation]

theorem rotation_length (bytes : List UInt8) : rotation bytes bytes.length = bytes := by
  simp [rotation]

theorem turn_concat (front : List UInt8) (byte : UInt8) :
    turn (front ++ [byte]) = byte :: front := by
  simp [turn]

theorem rotation_succ (h : i < bytes.length) :
    rotation bytes (i + 1) = bytes.drop (i + 1) ++ bytes.take i ++ [bytes[i]] := by
  rw [rotation, List.take_succ_eq_append_getElem h, List.append_assoc]

theorem turn_rotation (h : i < bytes.length) :
    turn (rotation bytes (i + 1)) = rotation bytes i := by
  rw [rotation_succ h, turn_concat, rotation, List.drop_eq_getElem_cons h, List.cons_append]

theorem turn_injective {row other : List UInt8} (hrow : row ≠ []) (hother : other ≠ [])
    (h : turn row = turn other) : row = other := by
  rw [← List.dropLast_concat_getLast hrow, ← List.dropLast_concat_getLast hother] at h ⊢
  rw [turn_concat, turn_concat] at h
  obtain ⟨hlast, hfront⟩ := List.cons.inj h
  rw [hlast, hfront]

/-! ## Rows -/

theorem map_turn_perm (bytes : List UInt8) : ((all bytes).map turn).Perm (all bytes) := by
  have hall : all bytes = (List.range bytes.length).map (rotation bytes) := rfl
  rw [hall, List.map_map]
  cases hlength : bytes.length with
  | zero => exact .nil
  | succ n =>
    have hfirst : turn (rotation bytes 0) = rotation bytes n := by
      have hlast := turn_rotation (show n < bytes.length by omega)
      rw [← hlength, rotation_length] at hlast
      rw [rotation_zero, hlast]
    have hrest : (List.range n).map ((turn ∘ rotation bytes) ∘ Nat.succ) =
        (List.range n).map (rotation bytes) := by
      refine List.map_congr_left fun i hi => turn_rotation ?_
      have := List.mem_range.1 hi
      omega
    conv => lhs; rw [List.range_succ_eq_map, List.map_cons, List.map_map, hrest]
    rw [Function.comp_apply, hfirst, List.range_succ, List.map_append]
    exact (List.perm_append_singleton _ _).symm

theorem sorted_perm (bytes : List UInt8) : (sorted bytes).Perm (all bytes) :=
  List.mergeSort_perm ..

theorem length_of_mem_sorted {row : List UInt8} (h : row ∈ sorted bytes) :
    row.length = bytes.length := by
  obtain ⟨i, -, rfl⟩ := List.mem_map.1 ((sorted_perm bytes).mem_iff.1 h)
  exact length_rotation bytes i

theorem pairwise_sorted (bytes : List UInt8) : (sorted bytes).Pairwise (· ≤ ·) := by
  have htrans (a b c : List UInt8) (hab : decide (a ≤ b) = true) (hbc : decide (b ≤ c) = true) :
      decide (a ≤ c) = true := by
    rw [decide_eq_true_eq] at *
    exact List.le_trans hab hbc
  have htotal (a b : List UInt8) : (decide (a ≤ b) || decide (b ≤ a)) = true := by
    simpa using List.le_total a b
  exact (List.pairwise_mergeSort htrans htotal (all bytes)).imp fun h => by simpa using h

theorem sorted_eq {bytes : List UInt8} {rows : List (List UInt8)} (h : (all bytes).Perm rows)
    (hrows : rows.Pairwise (· ≤ ·)) : sorted bytes = rows := by
  refine List.Perm.eq_of_pairwise ?_ (pairwise_sorted bytes) hrows ((sorted_perm bytes).trans h)
  intro a b _ _ hab hba
  exact List.le_antisymm hab hba

/-- Words of one length keep their order without their last bytes. -/
theorem le_of_concat_le {front other : List UInt8} {byte last : UInt8}
    (hlength : front.length = other.length) (h : front ++ [byte] ≤ other ++ [last]) :
    front ≤ other := by
  induction front generalizing other with
  | nil => exact List.nil_le other
  | cons first front ih =>
    cases other with
    | nil => cases hlength
    | cons second other =>
      rw [List.cons_append, List.cons_append, List.cons_le_cons_iff] at h
      rw [List.cons_le_cons_iff]
      rcases h with hlt | ⟨heq, hle⟩
      · exact .inl hlt
      · exact .inr ⟨heq, ih (Nat.succ.inj hlength) hle⟩

theorem turn_le_turn {row other : List UInt8} (hlength : row.length = other.length)
    (h : row.getLastD 0 < other.getLastD 0 ∨ row.getLastD 0 = other.getLastD 0 ∧ row ≤ other) :
    turn row ≤ turn other := by
  rw [turn, turn, List.cons_le_cons_iff]
  rcases h with hlt | ⟨heq, hle⟩
  · exact .inl hlt
  refine .inr ⟨heq, ?_⟩
  by_cases hrow : row = []
  · rw [hrow]
    exact List.nil_le _
  by_cases hother : other = []
  · rw [hother] at hlength
    exact absurd (List.length_eq_zero_iff.1 hlength) hrow
  rw [← List.dropLast_concat_getLast hrow, ← List.dropLast_concat_getLast hother] at hle
  exact le_of_concat_le (by simp [hlength]) hle

theorem getD_lastColumn (i : Nat) :
    (lastColumn bytes).getD i 0 = ((sorted bytes).getD i []).getLastD 0 := by
  rw [lastColumn, List.getD_eq_getElem?_getD, List.getD_eq_getElem?_getD, List.getElem?_map]
  cases (sorted bytes)[i]? <;> rfl

/-- The turned rows in the order of their first bytes are the rows again. -/
theorem map_turn_sortedPlaces (bytes : List UInt8) :
    (sortedPlaces (lastColumn bytes)).map (fun place => turn ((sorted bytes).getD place [])) =
      sorted bytes := by
  have hrange : (List.range (lastColumn bytes).length).map
      (fun place => turn ((sorted bytes).getD place [])) = (sorted bytes).map turn := by
    refine List.ext_getElem (by simp) fun i hi hi' => ?_
    rw [List.length_map] at hi'
    simp [List.getD_eq_getElem?_getD, List.getElem?_eq_getElem hi']
  have hperm : ((sortedPlaces (lastColumn bytes)).map
      fun place => turn ((sorted bytes).getD place [])).Perm (sorted bytes) := by
    refine ((sortedPlaces_perm _).map _).trans ?_
    rw [hrange]
    exact (((sorted_perm bytes).map turn).trans (map_turn_perm bytes)).trans (sorted_perm bytes).symm
  refine List.Perm.eq_of_pairwise (fun a b _ _ => List.le_antisymm) ?_ (pairwise_sorted bytes) hperm
  rw [List.pairwise_map]
  refine List.Pairwise.imp_of_mem ?_ (pairwise_sortedPlaces (lastColumn bytes))
  intro i j hi hj hbefore
  have hi' : i < (sorted bytes).length := by simpa using mem_sortedPlaces.1 hi
  have hj' : j < (sorted bytes).length := by simpa using mem_sortedPlaces.1 hj
  have hgeti : (sorted bytes).getD i [] = (sorted bytes)[i] := by
    rw [List.getD_eq_getElem?_getD, List.getElem?_eq_getElem hi']
    rfl
  have hgetj : (sorted bytes).getD j [] = (sorted bytes)[j] := by
    rw [List.getD_eq_getElem?_getD, List.getElem?_eq_getElem hj']
    rfl
  rw [Before, getD_lastColumn, getD_lastColumn, hgeti, hgetj] at hbefore
  rw [hgeti, hgetj]
  apply turn_le_turn
  · rw [length_of_mem_sorted (List.getElem_mem hi'), length_of_mem_sorted (List.getElem_mem hj')]
  · rcases hbefore with hlt | ⟨heq, hlt⟩
    · exact .inl hlt
    · exact .inr ⟨heq, List.pairwise_iff_getElem.1 (pairwise_sorted bytes) i j hi' hj' hlt⟩

/-! ## Following the places -/

/-- A row sorts to the row that begins one byte later, and gives the byte between. -/
theorem next_row {row : Nat} (hrow : (sorted bytes)[row]? = some (rotation bytes i))
    (hi : i < bytes.length) :
    ∃ place, (sortedPlaces (lastColumn bytes)).getD row 0 = place ∧
      (sorted bytes)[place]? = some (rotation bytes (i + 1)) ∧
      (lastColumn bytes).getD place 0 = bytes[i] := by
  have hlt : row < (sortedPlaces (lastColumn bytes)).length := by
    simpa using (List.getElem?_eq_some_iff.1 hrow).1
  have hplace : (sortedPlaces (lastColumn bytes))[row] < (sorted bytes).length := by
    simpa using mem_sortedPlaces.1 (List.getElem_mem hlt)
  rw [← map_turn_sortedPlaces, List.getElem?_map, List.getElem?_eq_getElem hlt, Option.map_some,
    List.getD_eq_getElem?_getD, List.getElem?_eq_getElem hplace, ← turn_rotation hi] at hrow
  have hne {l : List UInt8} (hl : l.length = bytes.length) : l ≠ [] := fun h => by
    rw [h] at hl
    simp only [List.length_nil] at hl
    omega
  have hnext := turn_injective (hne (length_of_mem_sorted (List.getElem_mem hplace)))
    (hne (length_rotation bytes (i + 1))) (Option.some.inj hrow)
  refine ⟨(sortedPlaces (lastColumn bytes))[row], ?_, ?_, ?_⟩
  · rw [List.getD_eq_getElem?_getD, List.getElem?_eq_getElem hlt]
    rfl
  · rw [List.getElem?_eq_getElem hplace, hnext]
  · rw [getD_lastColumn, List.getD_eq_getElem?_getD, List.getElem?_eq_getElem hplace,
      Option.getD_some, hnext, rotation_succ hi, List.getLastD_concat]

theorem follow_sortedPlaces {row : Nat} (count : Nat)
    (hrow : (sorted bytes)[row]? = some (rotation bytes i)) (hcount : i + count = bytes.length) :
    follow (lastColumn bytes) (sortedPlaces (lastColumn bytes)) count
      ((sortedPlaces (lastColumn bytes)).getD row 0) = bytes.drop i := by
  induction count generalizing i row with
  | zero => rw [follow, List.drop_of_length_le (by omega)]
  | succ count ih =>
    have hi : i < bytes.length := by omega
    obtain ⟨place, hplace, hnext, hbyte⟩ := next_row hrow hi
    rw [follow, hplace, hbyte, ih hnext (by omega), List.drop_eq_getElem_cons hi]

/-- A sequence is found again in the row that it names. -/
theorem unsort_lastColumn (h : (sorted bytes)[pointer]? = some bytes) :
    unsort (lastColumn bytes) pointer = bytes := by
  have hrow : (sorted bytes)[pointer]? = some (rotation bytes 0) := by rw [h, rotation_zero]
  rw [unsort, length_lastColumn, follow_sortedPlaces bytes.length hrow (Nat.zero_add _),
    List.drop_zero]

end Bunzip.Block.Rotations
