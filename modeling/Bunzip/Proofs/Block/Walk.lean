import Bunzip.Block.Walk
import Bunzip.Proofs.Block.Places

/-!
# The walk follows the sorted places

Counting puts the link of each place at its rank (`sortLinks_eq`), so the links are those of the
sorted places, and a walk gives what `Rotations.unsort` says (`Walk.gives_start`). Places must fit in
the 24 bits that a link has for them.
-/

namespace Bunzip.Block

open Rotations

variable {column : List UInt8} {counts : Array Nat}

/-- How often each byte occurs. -/
structure Histogram (counts : Array Nat) (column : List UInt8) : Prop where
  size_eq : counts.size = 256
  count : ∀ byte : UInt8, counts[byte.toNat]? = some (column.count byte)

/-! ## First places -/

theorem countP_lt_succ (column : List UInt8) {k : Nat} (hk : k < 256) :
    column.countP (·.toNat < k + 1) =
      column.countP (·.toNat < k) + column.count (UInt8.ofNat k) := by
  have hnext : (fun byte : UInt8 => decide (byte.toNat < k + 1)) = fun byte =>
      decide (byte.toNat < k) || byte == UInt8.ofNat k := by
    funext byte
    rw [Bool.eq_iff_iff, Bool.or_eq_true, decide_eq_true_eq, decide_eq_true_eq, beq_iff_eq,
      ← UInt8.toNat_inj, UInt8.toNat_ofNat', Nat.mod_eq_of_lt (show k < 2 ^ 8 from hk)]
    omega
  rw [hnext, countP_or]
  · rfl
  · intro byte _ hlt heq
    rw [decide_eq_true_eq] at hlt
    rw [beq_iff_eq] at heq
    rw [heq, UInt8.toNat_ofNat', Nat.mod_eq_of_lt (show k < 2 ^ 8 from hk)] at hlt
    omega

/-- The first places from byte `k` on, where the smaller bytes have been added up already. -/
theorem Histogram.getElem?_firstPlaces (h : Histogram counts column) (k j : Nat)
    (hlt : k + j < 256) :
    (firstPlaces (counts.toList.drop k) (column.countP (·.toNat < k)))[j]? =
      some (column.countP (·.toNat < k + j)) := by
  have hk : k < counts.toList.length := by rw [Array.length_toList, h.size_eq]; omega
  rw [List.drop_eq_getElem_cons hk, firstPlaces]
  induction j generalizing k with
  | zero => rfl
  | succ j ih =>
    have hcount := h.count (UInt8.ofNat k)
    rw [UInt8.toNat_ofNat', Nat.mod_eq_of_lt (show k < 2 ^ 8 by omega),
      ← Array.getElem?_toList, List.getElem?_eq_getElem hk] at hcount
    have hnext : k + 1 < counts.toList.length := by rw [Array.length_toList, h.size_eq]; omega
    rw [List.getElem?_cons_succ, Option.some.inj hcount, ← countP_lt_succ column (by omega),
      List.drop_eq_getElem_cons hnext, firstPlaces, ih (k + 1) (by omega) hnext]
    congr 4
    funext byte
    rw [Nat.add_assoc, Nat.add_comm 1]

/-- The first place of a byte is the number of smaller ones. -/
theorem Histogram.firstPlace (h : Histogram counts column) (byte : UInt8) :
    (firstPlaces counts.toList 0).toArray[byte.toNat]? = some (column.countP (· < byte)) := by
  have hplace := h.getElem?_firstPlaces 0 byte.toNat (by simpa using byte.toNat_lt)
  have hnone : column.countP (·.toNat < 0) = 0 := by simp
  rw [hnone, List.drop_zero, Nat.zero_add] at hplace
  exact List.getElem?_toArray.trans hplace

/-! ## Counting sort -/

/-- Each place goes to its rank. -/
theorem sortLinks_eq (front rest : List UInt8) {free : Array Nat} {links : Array UInt32}
    (hcolumn : column = front ++ rest)
    (hfree : ∀ byte : UInt8, free[byte.toNat]? =
      some (column.countP (· < byte) + front.count byte))
    (hsize : links.size = column.length)
    (hlinks : ∀ j < front.length, links[rank column j]? = some (link j (column.getD j 0))) :
    ∃ out, sortLinks rest front.length free links = .ok out ∧ out.size = column.length ∧
      ∀ j < column.length, out[rank column j]? = some (link j (column.getD j 0)) := by
  induction rest generalizing front free links with
  | nil =>
    rw [List.append_nil] at hcolumn
    exact ⟨links, rfl, hsize, by rwa [hcolumn] at hlinks ⊢⟩
  | cons byte rest ih =>
    have hlt : front.length < column.length := by simp [hcolumn]
    have hbyte : column.getD front.length 0 = byte := by simp [hcolumn]
    have htake : column.take front.length = front := by simp [hcolumn]
    have hslot : column.countP (· < byte) + front.count byte = rank column front.length := by
      rw [rank_eq hlt, hbyte, htake]
    have hrank := rank_lt hlt
    have hlength : front.length + 1 = (front ++ [byte]).length := by simp
    simp only [sortLinks, hfree, hslot]
    rw [if_pos (by omega), hlength]
    refine ih (front ++ [byte]) (by simp [hcolumn]) ?_ (by simpa using hsize) ?_
    · intro other
      have hroom : byte.toNat < free.size := (Array.getElem?_eq_some_iff.1 (hfree byte)).1
      rw [Array.getElem?_setIfInBounds, List.count_append]
      by_cases heq : byte = other
      · rw [if_pos (by rw [heq]), if_pos hroom, ← hslot, ← heq, List.count_singleton_self,
          Nat.add_assoc]
      · rw [if_neg fun hnat => heq (UInt8.toNat_inj.1 hnat), hfree other,
          List.count_singleton, if_neg (by simpa using heq), Nat.add_zero]
    · intro j hj
      rw [List.length_append, List.length_singleton] at hj
      rw [Array.getElem?_setIfInBounds]
      by_cases heq : j = front.length
      · rw [heq, if_pos rfl, if_pos (by omega), hbyte]
      · rw [if_neg fun hrank => heq (rank_injective (by omega) hlt hrank.symm)]
        exact hlinks j (by omega)

theorem sortLinks_sortedPlaces (h : Histogram counts column) :
    ∃ links, sortLinks column 0 (firstPlaces counts.toList 0).toArray
        (Array.replicate column.length 0) = .ok links ∧ links.size = column.length ∧
      ∀ k < column.length, ∃ place < column.length, (sortedPlaces column).getD k 0 = place ∧
        links[k]? = some (link place (column.getD place 0)) := by
  obtain ⟨links, hsort, hsize, hlinks⟩ := sortLinks_eq [] column (List.nil_append column).symm
    (fun byte => by rw [h.firstPlace, List.count_nil, Nat.add_zero]) Array.size_replicate
    (fun j hj => absurd hj (Nat.not_lt_zero j))
  refine ⟨links, hsort, hsize, fun k hk => ?_⟩
  have hk' : k < (sortedPlaces column).length := by rwa [length_sortedPlaces]
  have hplace := mem_sortedPlaces.1 (List.getElem_mem hk')
  have hlink := hlinks _ hplace
  rw [rank_getElem hk'] at hlink
  exact ⟨_, hplace, by rw [List.getD_eq_getElem?_getD, List.getElem?_eq_getElem hk']; rfl, hlink⟩

/-! ## The walk -/

/-- The bytes that a walk gives. -/
def Walk.Gives : Walk → List UInt8 → Prop
  | walk, [] => walk.left = 0
  | walk, byte :: rest => walk.left = rest.length + 1 ∧
    ∃ after, walk.next = .ok (byte, after) ∧ after.Gives rest

theorem Walk.Gives.left_eq {walk : Walk} {bytes : List UInt8} (h : walk.Gives bytes) :
    walk.left = bytes.length := by
  cases bytes with
  | nil => exact h
  | cons => exact h.1

/-- From a place on the walk gives what following the places gives. -/
theorem gives_follow {links : Array UInt32} (hlength : column.length ≤ 2 ^ 24)
    (hlinks : ∀ k < column.length, ∃ place < column.length,
      (sortedPlaces column).getD k 0 = place ∧
        links[k]? = some (link place (column.getD place 0)))
    (count place : Nat) (hplace : place < column.length) :
    Walk.Gives ⟨links, link place (column.getD place 0), count⟩
      (follow column (sortedPlaces column) count place) := by
  induction count generalizing place with
  | zero => rfl
  | succ count ih =>
    obtain ⟨next, hnext, heq, hlink⟩ := hlinks place hplace
    rw [follow, heq]
    refine ⟨by rw [length_follow], ⟨links, link next (column.getD next 0), count⟩, ?_,
      ih next hnext⟩
    rw [Walk.next, linkPlace_link _ _ (by omega)]
    simp only [hlink, linkByte_link, Nat.add_sub_cancel]

/-- The walk of a block gives the unsorted bytes. -/
theorem Walk.gives_start {pointer : Nat} (h : Histogram counts column)
    (hlength : column.length ≤ 2 ^ 24) (hpointer : pointer < column.length) :
    ∃ walk, Walk.start column.toArray counts pointer = .ok walk ∧
      walk.Gives (unsort column pointer) := by
  obtain ⟨links, hsort, -, hlinks⟩ := sortLinks_sortedPlaces h
  obtain ⟨place, hplace, heq, hlink⟩ := hlinks pointer hpointer
  refine ⟨⟨links, link place (column.getD place 0), column.length⟩, ?_, ?_⟩
  · rw [Walk.start, if_neg (by simpa using hpointer)]
    simp only [List.size_toArray, hsort, hlink]
  · rw [unsort, heq]
    exact gives_follow hlength hlinks _ _ hplace

end Bunzip.Block
