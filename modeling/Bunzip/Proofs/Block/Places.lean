import Bunzip.Block.Rotations

/-!
# The places of a column in order

`Rotations.sortedPlaces` puts the places of a column in the order of their bytes and, for equal
bytes, of the places themselves (`pairwise_sortedPlaces`). So a place stands behind as many others
as come before it in this order (`getElem?_rank`), and this number can be counted in the column: the
smaller bytes, and the equal ones to the left (`rank_eq`).
-/

namespace Bunzip.Block.Rotations

variable {column : List UInt8} {i j : Nat}

/-- The order of places: by their bytes, equal bytes from left to right. -/
def Before (column : List UInt8) (i j : Nat) : Prop :=
  column.getD i 0 < column.getD j 0 ∨ column.getD i 0 = column.getD j 0 ∧ i < j

instance (column : List UInt8) (i j : Nat) : Decidable (Before column i j) :=
  inferInstanceAs (Decidable (_ ∨ _))

theorem Before.asymm (h : Before column i j) : ¬ Before column j i := by
  rintro (hlt | ⟨heq, hlt⟩)
  · rcases h with h | ⟨h, -⟩
    · exact UInt8.lt_asymm h hlt
    · rw [h] at hlt
      exact UInt8.lt_irrefl _ hlt
  · rcases h with h | ⟨-, h⟩
    · rw [heq] at h
      exact UInt8.lt_irrefl _ h
    · omega

theorem Before.irrefl (column : List UInt8) (i : Nat) : ¬ Before column i i := by
  rintro (h | ⟨-, h⟩)
  · exact UInt8.lt_irrefl _ h
  · omega

theorem nodup_sortedPlaces (column : List UInt8) : (sortedPlaces column).Nodup :=
  (sortedPlaces_perm column).nodup_iff.2 List.nodup_range

theorem mem_sortedPlaces : i ∈ sortedPlaces column ↔ i < column.length := by
  rw [(sortedPlaces_perm column).mem_iff, List.mem_range]

@[simp] theorem length_sortedPlaces (column : List UInt8) :
    (sortedPlaces column).length = column.length := by
  rw [(sortedPlaces_perm column).length_eq, List.length_range]

/-- The places are in order, since the sort is stable. -/
theorem pairwise_sortedPlaces (column : List UInt8) :
    (sortedPlaces column).Pairwise (Before column) := by
  have htrans (i j k : Nat) (hij : decide (column.getD i 0 ≤ column.getD j 0) = true)
      (hjk : decide (column.getD j 0 ≤ column.getD k 0) = true) :
      decide (column.getD i 0 ≤ column.getD k 0) = true := by
    rw [decide_eq_true_eq] at *
    exact UInt8.le_trans hij hjk
  have htotal (i j : Nat) : (decide (column.getD i 0 ≤ column.getD j 0) ||
      decide (column.getD j 0 ≤ column.getD i 0)) = true := by
    simpa using UInt8.le_total _ _
  have hnodup := nodup_sortedPlaces column
  rw [sortedPlaces, ← List.mergeSort_zipIdx, List.Nodup, List.pairwise_map] at hnodup
  rw [sortedPlaces, ← List.mergeSort_zipIdx, List.pairwise_map]
  refine List.Pairwise.imp_of_mem ?_ ((List.pairwise_mergeSort (List.zipIdxLE_trans htrans)
    (List.zipIdxLE_total htotal) _).and hnodup)
  rintro ⟨i, i'⟩ ⟨j, j'⟩ hi hj ⟨hle, hne⟩
  -- a place is its own index, so that ties are broken by the places
  have hself {k k' : Nat} (h : (k, k') ∈ (List.range column.length).zipIdx) : k' = k := by
    have := List.mem_zipIdx h
    simp only [List.getElem_range] at this
    omega
  obtain rfl := hself (List.mem_mergeSort.1 hi)
  obtain rfl := hself (List.mem_mergeSort.1 hj)
  simp only [List.zipIdxLE] at hle
  split at hle
  · rename_i hij
    rw [decide_eq_true_eq] at hij
    split at hle
    · rename_i hji
      rw [decide_eq_true_eq] at hji hle
      exact .inr ⟨UInt8.le_antisymm hij hji, Nat.lt_of_le_of_ne hle hne⟩
    · rename_i hji
      rw [decide_eq_true_eq, UInt8.not_le] at hji
      exact .inl hji
  · cases hle

/-! ## Ranks -/

/-- The number of places that come before a place. -/
def rank (column : List UInt8) (i : Nat) : Nat :=
  (List.range column.length).countP (Before column · i)

/-- The rank of a place in the order is its place there. -/
theorem rank_getElem {k : Nat} (hk : k < (sortedPlaces column).length) :
    rank column (sortedPlaces column)[k] = k := by
  have hpair := List.pairwise_iff_getElem.1 (pairwise_sortedPlaces column)
  have hsplit (p : Nat → Bool) : (List.range column.length).countP p =
      ((sortedPlaces column).take k).countP p + ((sortedPlaces column).drop k).countP p := by
    rw [← List.countP_append, List.take_append_drop, (sortedPlaces_perm column).countP_eq]
  rw [rank, hsplit]
  have hfront : ((sortedPlaces column).take k).countP
      (Before column · (sortedPlaces column)[k]) = k := by
    rw [List.countP_eq_length.2, List.length_take, Nat.min_eq_left (Nat.le_of_lt hk)]
    intro i hi
    obtain ⟨l, hl, rfl⟩ := List.mem_iff_getElem.1 hi
    rw [List.length_take] at hl
    rw [List.getElem_take, decide_eq_true_eq]
    exact hpair l k (by omega) hk (by omega)
  have hback : ((sortedPlaces column).drop k).countP
      (Before column · (sortedPlaces column)[k]) = 0 := by
    rw [List.countP_eq_zero]
    intro i hi
    obtain ⟨l, hl, rfl⟩ := List.mem_iff_getElem.1 hi
    rw [List.length_drop] at hl
    rw [List.getElem_drop, decide_eq_true_eq]
    rcases Nat.eq_zero_or_pos l with rfl | hpos
    · exact Before.irrefl _ _
    · exact (hpair k (k + l) hk (by omega) (by omega)).asymm
  rw [hfront, hback, Nat.add_zero]

/-- A place stands where its rank says. -/
theorem getElem?_rank (h : i < column.length) : (sortedPlaces column)[rank column i]? = some i := by
  obtain ⟨k, hk, rfl⟩ := List.mem_iff_getElem.1 (mem_sortedPlaces.2 h)
  rw [rank_getElem hk, List.getElem?_eq_getElem hk]

theorem rank_lt (h : i < column.length) : rank column i < column.length := by
  have hlt := (List.getElem?_eq_some_iff.1 (getElem?_rank h)).1
  rwa [length_sortedPlaces] at hlt

theorem rank_injective (hi : i < column.length) (hj : j < column.length)
    (h : rank column i = rank column j) : i = j := by
  have hget := getElem?_rank hi
  rw [h, getElem?_rank hj] at hget
  exact (Option.some.inj hget).symm

theorem map_getD_range (column : List UInt8) :
    (List.range column.length).map (column.getD · 0) = column := by
  refine List.ext_getElem (by simp) fun i hi hi' => ?_
  simp [List.getD_eq_getElem?_getD, List.getElem?_eq_getElem hi']

theorem countP_eq_range (column : List UInt8) (p : UInt8 → Bool) :
    column.countP p = (List.range column.length).countP fun j => p (column.getD j 0) := by
  conv => lhs; rw [← map_getD_range column, List.countP_map]
  rfl

theorem countP_or {α : Type} {p q : α → Bool} (l : List α) (h : ∀ a ∈ l, p a → ¬ q a) :
    l.countP (fun a => p a || q a) = l.countP p + l.countP q := by
  induction l with
  | nil => rfl
  | cons a l ih =>
    have hdisjoint := h a List.mem_cons_self
    rw [List.countP_cons, List.countP_cons, List.countP_cons,
      ih fun b hb => h b (List.mem_cons_of_mem _ hb)]
    cases hp : p a <;> cases hq : q a <;> simp [hp, hq] at hdisjoint ⊢ <;> omega

/-- The rank of a place is the number of smaller bytes and of equal ones to the left. -/
theorem rank_eq (h : i < column.length) :
    rank column i = column.countP (· < column.getD i 0) +
      (column.take i).count (column.getD i 0) := by
  have hbefore : (fun j => decide (Before column j i)) = fun j =>
      decide (column.getD j 0 < column.getD i 0) ||
        decide (column.getD j 0 = column.getD i 0 ∧ j < i) := by
    funext j
    rw [Bool.eq_iff_iff, Bool.or_eq_true, decide_eq_true_eq, decide_eq_true_eq, decide_eq_true_eq]
    rfl
  have hsmaller : (List.range column.length).countP
      (fun j => decide (column.getD j 0 < column.getD i 0)) =
        column.countP (· < column.getD i 0) :=
    (countP_eq_range column fun byte => decide (byte < column.getD i 0)).symm
  have hequal : (List.range column.length).countP
      (fun j => decide (column.getD j 0 = column.getD i 0 ∧ j < i)) =
        (column.take i).count (column.getD i 0) := by
    obtain ⟨m, hm⟩ : ∃ m, column.length = i + m := ⟨column.length - i, by omega⟩
    have hleft : column.take i = (List.range i).map (column.getD · 0) := by
      conv => lhs; rw [← map_getD_range column, ← List.map_take, List.take_range,
        Nat.min_eq_left (Nat.le_of_lt h)]
    have hright : ((List.range m).map (i + ·)).countP
        (fun j => decide (column.getD j 0 = column.getD i 0 ∧ j < i)) = 0 := by
      rw [List.countP_eq_zero]
      intro j hj
      obtain ⟨l, -, rfl⟩ := List.mem_map.1 hj
      simp
    rw [hm, List.range_add, List.countP_append, hright, Nat.add_zero, hleft, List.count,
      List.countP_map]
    refine List.countP_congr fun j hj => ?_
    have hlt := List.mem_range.1 hj
    simp [hlt]
  rw [rank, hbefore, countP_or, hsmaller, hequal]
  intro j _ hlt heq
  rw [decide_eq_true_eq] at hlt heq
  rw [heq.1] at hlt
  exact UInt8.lt_irrefl _ hlt

end Bunzip.Block.Rotations
