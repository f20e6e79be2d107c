import Bunzip.MoveToFront.Cells
import Bunzip.Proofs.MoveToFront

/-!
# Moving to the front in place

Rounds of four leave the cells as handing on one by one does (`handOnAll_eq`), after which each
cell up to the index has the byte of the cell before it (`getElem?_handOnEach`). So the cells in use
are the list with the byte taken out and put in front (`toFront?_eq_some`), and a list of indices
does to them what it does to the table (`toFrontAll?_eq`). All that `MoveToFront` says of lists
holds of the cells (`moves_to_front`).
-/

namespace Bunzip.MoveToFront

/-- The bytes at a list of positions, each of which moves to the front in its turn. -/
def takeAll? (table : MoveToFront) : List Nat → Option (List UInt8 × MoveToFront)
  | [] => some ([], table)
  | position :: rest =>
    match table.take? position with
    | none => none
    | some (byte, table) =>
      match table.takeAll? rest with
      | none => none
      | some (bytes, table) => some (byte :: bytes, table)

namespace Cells

variable {bytes : Vector UInt8 256} {i : Nat} {t : Cells} {index : Nat}

/-! ## Handing on -/

/-- The rounds of four do what the cells do one by one. -/
theorem handOnAll_eq (bytes : Vector UInt8 256) (i : Nat) (h : i < 256) :
    handOnAll bytes i h = handOnEach bytes i h := by
  induction i using Nat.strongRecOn generalizing bytes with
  | ind i ih =>
    match i with
    | 0 | 1 | 2 | 3 => rfl
    | i + 4 =>
      rw [handOnAll, ih i (by omega)]
      rfl

/-- The cells up to `i` have the bytes of the cells before them, the others keep theirs. -/
theorem getElem?_handOnEach (bytes : Vector UInt8 256) (i : Nat) (h : i < 256) (j : Nat) :
    (handOnEach bytes i h)[j]? = if 0 < j ∧ j ≤ i then bytes[j - 1]? else bytes[j]? := by
  induction i generalizing bytes with
  | zero => rw [handOnEach, if_neg (by omega)]
  | succ i ih =>
    rw [handOnEach, ih, handOn]
    -- cell `i` and those before it were not written yet
    by_cases hj : 0 < j ∧ j ≤ i
    · rw [if_pos hj, if_pos (by omega), Vector.getElem?_set_ne _ (by omega)]
    rw [if_neg hj]
    by_cases hlast : j = i + 1
    · rw [hlast, if_pos (by omega), Vector.getElem?_set_self]
      simp
    · rw [if_neg (by omega), Vector.getElem?_set_ne _ (by omega)]

/-! ## One index -/

theorem getElem?_toList (t : Cells) (j : Nat) :
    t.toList[j]? = if j < t.size then t.bytes[j]? else none := by
  rw [toList, List.getElem?_take]
  simp

theorem length_toList (t : Cells) : t.toList.length = t.size := by
  rw [toList, List.length_take, Vector.length_toList, Nat.min_eq_left t.size_le]

/-- The byte at an index is given, and the list is left with it in front. -/
theorem toFront?_eq_some (h : index < t.size) :
    ∃ byte next, t.toList[index]? = some byte ∧ t.toFront? index = some (byte, next) ∧
      next.size = t.size ∧ next.toList = byte :: t.toList.eraseIdx index := by
  have hindex : index < 256 := Nat.lt_of_lt_of_le h t.size_le
  refine ⟨t.bytes[index],
    { t with bytes := (handOnEach t.bytes index hindex).set 0 t.bytes[index] }, ?_, ?_, rfl, ?_⟩
  · rw [getElem?_toList, if_pos h, Vector.getElem?_eq_getElem hindex]
  · rw [toFront?, dif_pos hindex, handOnAll_eq]
  · refine List.ext_getElem? fun j => ?_
    rw [getElem?_toList]
    cases j with
    | zero => simp [show 0 < t.size by omega]
    | succ j =>
      rw [Vector.getElem?_set_ne _ (by omega), getElem?_handOnEach, List.getElem?_cons_succ,
        List.getElem?_eraseIdx, getElem?_toList, getElem?_toList]
      grind

/-- What an index does to the cells a position does to their table. -/
theorem take?_toTable {byte : UInt8} {next : Cells} (h : index < t.size)
    (hnext : t.toFront? index = some (byte, next)) :
    t.toTable.take? index = some (byte, next.toTable) := by
  obtain ⟨byte', next', hbyte, hfront, -, hlist⟩ := toFront?_eq_some h
  rw [hnext] at hfront
  cases hfront
  obtain ⟨hlt, hget⟩ := List.getElem?_eq_some_iff.1 hbyte
  obtain ⟨⟨order⟩, htake, horder⟩ := MoveToFront.take?_eq_some t.toTable index hlt
  have hbyte' : t.toTable.toList[index] = byte := hget
  rw [htake, hbyte']
  rw [hbyte'] at horder
  have hnextList : order.toList = next.toList := horder.trans hlist.symm
  rw [toTable, ← hnextList]

/-! ## Lists of indices -/

/-- A list of indices does to the cells what it does to their list, and to their table. -/
theorem toFrontAll?_eq {indices : List Nat} (h : ∀ index ∈ indices, index < t.size) :
    ∃ next, t.toFrontAll? indices = some (decode t.toList indices, next) ∧
      t.toTable.takeAll? indices = some (decode t.toList indices, next.toTable) ∧
      next.size = t.size ∧ next.toList = indices.foldl turn t.toList := by
  induction indices generalizing t with
  | nil => exact ⟨t, rfl, rfl, rfl, rfl⟩
  | cons index indices ih =>
    have hindex := h index List.mem_cons_self
    obtain ⟨byte, mid, hbyte, hfront, hsize, hlist⟩ := toFront?_eq_some hindex
    obtain ⟨next, hall, htable, hnext, hturn⟩ := ih (t := mid) fun other hother => by
      rw [hsize]
      exact h other (List.mem_cons_of_mem _ hother)
    refine ⟨next, ?_, ?_, hnext.trans hsize, ?_⟩
    · simp only [toFrontAll?, hfront, hall, decode, hbyte, hlist]
    · simp only [takeAll?, take?_toTable hindex hfront, htable, decode, hbyte, hlist]
    · rw [hturn, hlist, List.foldl_cons, turn_of_getElem? hbyte]

theorem toList_start {size : Nat} (h : size ≤ 256) :
    (start size).toList = (List.range size).map UInt8.ofNat := by
  refine List.ext_getElem? fun j => ?_
  rw [getElem?_toList, List.getElem?_map]
  show (if j < min size 256 then _ else _) = _
  rw [Nat.min_eq_left h]
  by_cases hj : j < size
  · rw [if_pos hj, List.getElem?_range hj]
    simp [start, show j < 256 by omega, UInt8.ofNatLT_eq_ofNat]
  · rw [if_neg hj, List.getElem?_eq_none (by simpa using hj)]
    rfl

theorem toTable_start {size : Nat} (h : size ≤ 256) : (start size).toTable = ofSize size := by
  rw [toTable, toList_start h, ofSize, Nat.min_eq_left h, ← List.map_toArray, List.toArray_range]

/-- After any indices of the table the cells hold the table of the decoder. It has the same bytes as
to begin with, and only those up to the largest index have moved. The byte at a further index is
given and put in front, and the positions that are written for a byte sequence give the sequence. -/
theorem moves_to_front {size : Nat} (hsize : size ≤ 256) {indices : List Nat}
    (h : ∀ index ∈ indices, index < size) :
    ∃ bytes t, (start size).toFrontAll? indices = some (bytes, t) ∧
      (ofSize size).takeAll? indices = some (bytes, t.toTable) ∧
      t.toList.Perm ((List.range size).map UInt8.ofNat) ∧
      (∀ m, (∀ index ∈ indices, index < m) →
        (t.toList.take m).Perm (((List.range size).map UInt8.ofNat).take m) ∧
          t.toList.drop m = ((List.range size).map UInt8.ofNat).drop m) ∧
      (∀ index < size, ∃ byte next, t.toList[index]? = some byte ∧
        t.toFront? index = some (byte, next) ∧ next.toList = byte :: t.toList.eraseIdx index) ∧
      ∀ symbols : List UInt8, (∀ symbol ∈ symbols, symbol.toNat < size) →
        ∃ next, t.toFrontAll? (encode t.toList symbols) = some (symbols, next) := by
  have hstart : (start size).size = size := Nat.min_eq_left hsize
  obtain ⟨t, hall, htable, ht, hlist⟩ := toFrontAll?_eq (t := start size) (hstart.symm ▸ h)
  rw [toTable_start hsize] at htable
  rw [toList_start hsize] at hlist
  rw [hstart] at ht
  have hperm : t.toList.Perm ((List.range size).map UInt8.ofNat) := hlist ▸ foldl_turn_perm _ _
  refine ⟨_, t, hall, htable, hperm, fun m hm => ?_, fun index hindex => ?_, fun symbols hin => ?_⟩
  · rw [hlist]
    exact foldl_turn_below _ hm
  · obtain ⟨byte, next, hbyte, hfront, -, hnext⟩ := toFront?_eq_some (ht.symm ▸ hindex)
    exact ⟨byte, next, hbyte, hfront, hnext⟩
  · have hmem : ∀ symbol ∈ symbols, symbol ∈ t.toList := fun symbol hsymbol => by
      rw [hperm.mem_iff]
      exact List.mem_map.2 ⟨symbol.toNat, List.mem_range.2 (hin symbol hsymbol), UInt8.ofNat_toNat⟩
    obtain ⟨next, hnext, -⟩ := toFrontAll?_eq fun index hindex => by
      rw [← length_toList]
      exact lt_of_mem_encode hmem hindex
    rw [decode_encode _ _ hmem] at hnext
    exact ⟨next, hnext⟩

/-- Bytes handed on in rounds, and some left over. -/
theorem moves_to_front_rounds :
    ∃ t next, (start 16).toFrontAll? [7, 10, 4] = some ([7, 10, 2], t) ∧
      t.toList.drop 11 = [11, 12, 13, 14, 15] ∧
      t.toFrontAll? (encode t.toList [15, 7, 15]) = some ([15, 7, 15], next) := by
  have hindices : ∀ index ∈ [7, 10, 4], index < 16 := by decide
  obtain ⟨bytes, t, hall, -, -, hbelow, -, hcode⟩ := moves_to_front (by decide) hindices
  obtain ⟨next, hnext⟩ := hcode [15, 7, 15] (by simp)
  have hbytes : ((start 16).toFrontAll? [7, 10, 4]).map Prod.fst = some [7, 10, 2] := by
    decide +kernel
  rw [hall] at hbytes
  cases hbytes
  exact ⟨t, next, hall, (hbelow 11 (by decide)).2, hnext⟩

end Cells

end Bunzip.MoveToFront
