import Bunzip.Proofs.Block.Ranges
import Bunzip.Proofs.Block.Readout
import Bunzip.Proofs.Block.Rotations

/-!
# Blocks unsorted

A block of any bytes is linked in the order of these bytes (`Walk.start_eq`), and along its links a
walk gives as many bytes as the block has (`Walk.gives_of_closed`), since no link leads outside,
not even where the places of a large block are cut to the 24 bits of a link. If the block is the
last column of the sorted rotations of some data, the bytes are the data (`Walk.unsorts`): a walk
can give nothing else than what following the sorted places gives (`Walk.Gives.unique`).
-/

namespace Bunzip.Block

open Rotations

variable {column bytes other : List UInt8} {counts : Array Nat} {pointer : Nat} {walk : Walk}

/-! ## Counts -/

theorem Histogram.nil : Histogram (Array.replicate 256 0) [] := by
  refine ⟨Array.size_replicate, fun byte => ?_⟩
  rw [Array.getElem?_replicate, if_pos byte.toNat_lt, List.count_nil]

theorem Histogram.append_replicate (h : Histogram counts bytes) (byte : UInt8) (n : Nat) :
    Histogram (counts.modify byte.toNat (· + n)) (bytes ++ List.replicate n byte) :=
  ⟨Array.size_modify.trans h.size_eq, Expansion.counts_modify h.count byte n⟩

/-! ## Links in order -/

/-- The links of a block are those of its places in the order of their bytes. -/
theorem Walk.start_eq (h : Histogram counts column) (hpointer : pointer < column.length) :
    ∃ links current, Walk.start column.toArray counts pointer =
        .ok ⟨links, current, column.length⟩ ∧ current ∈ links ∧
      links.toList = (sortedPlaces column).map fun place => link place (column.getD place 0) := by
  obtain ⟨links, hsort, hsize, hlinks⟩ := sortLinks_sortedPlaces h
  obtain ⟨place, -, -, hcurrent⟩ := hlinks pointer hpointer
  refine ⟨links, link place (column.getD place 0), ?_, Array.mem_of_getElem? hcurrent, ?_⟩
  · rw [Walk.start, if_neg (by simpa using hpointer)]
    simp only [List.size_toArray, hsort, hcurrent]
  · refine List.ext_getElem (by simp [hsize]) fun k hk hk' => ?_
    have hlt : k < column.length := by simpa using hk'
    obtain ⟨other, -, hother, hlink⟩ := hlinks k hlt
    have hplace : k < (sortedPlaces column).length := by simpa using hlt
    rw [List.getD_eq_getElem?_getD, List.getElem?_eq_getElem hplace, Option.getD_some] at hother
    rw [← Array.getElem?_toList, List.getElem?_eq_getElem hk] at hlink
    rw [List.getElem_map, Option.some.inj hlink, hother]

theorem pairwise_map_sortedPlaces (column : List UInt8) :
    ((sortedPlaces column).map fun place => column.getD place 0).Pairwise (· ≤ ·) := by
  rw [List.pairwise_map]
  refine (pairwise_sortedPlaces column).imp fun {i j} hbefore => ?_
  rcases hbefore with hlt | ⟨heq, -⟩
  · exact UInt8.le_of_lt hlt
  · rw [heq]
    exact UInt8.le_refl _

/-! ## Walks that do not end early -/

def Walk.Closed (walk : Walk) : Prop :=
  walk.current ∈ walk.links ∧ ∀ link ∈ walk.links, linkPlace link < walk.links.size

/-- A closed walk gives all the bytes that it has left. -/
theorem Walk.gives_of_closed (h : walk.Closed) :
    ∃ bytes, bytes.length = walk.left ∧ walk.Gives bytes := by
  induction hleft : walk.left generalizing walk with
  | zero => exact ⟨[], rfl, hleft⟩
  | succ left ih =>
    have hlt := h.2 walk.current h.1
    have hnext : walk.next = .ok (linkByte walk.current,
        ⟨walk.links, walk.links[linkPlace walk.current], walk.left - 1⟩) := by
      rw [Walk.next, Array.getElem?_eq_getElem hlt]
    have hclosed : Walk.Closed ⟨walk.links, walk.links[linkPlace walk.current], walk.left - 1⟩ :=
      ⟨Array.getElem_mem hlt, h.2⟩
    obtain ⟨rest, hlength, hrest⟩ := ih hclosed (by simp only [hleft, Nat.add_sub_cancel])
    exact ⟨linkByte walk.current :: rest, by rw [List.length_cons, hlength],
      by rw [hleft, hlength], _, hnext, hrest⟩

/-- A walk gives one sequence of bytes. -/
theorem Walk.Gives.unique (h : walk.Gives bytes) (h' : walk.Gives other) : bytes = other := by
  induction bytes generalizing walk other with
  | nil =>
    have hlength := h'.left_eq
    rw [h.left_eq] at hlength
    exact (List.length_eq_zero_iff.1 hlength.symm).symm
  | cons byte rest ih =>
    obtain ⟨hleft, after, hnext, hafter⟩ := h
    cases other with
    | nil => exact absurd (hleft.symm.trans h'.left_eq) (Nat.succ_ne_zero _)
    | cons byte' rest' =>
      obtain ⟨-, after', hnext', hafter'⟩ := h'
      rw [hnext] at hnext'
      cases hnext'
      rw [ih hafter hafter']

theorem Walk.closed_start (h : Histogram counts column)
    (hstart : Walk.start column.toArray counts pointer = .ok walk) : walk.Closed := by
  have hpointer : pointer < column.length := by
    refine Nat.lt_of_not_le fun hle => ?_
    rw [Walk.start, if_pos (by simpa using hle)] at hstart
    cases hstart
  obtain ⟨links, current, hwalk, hmem, hlinks⟩ := Walk.start_eq h hpointer
  rw [hstart] at hwalk
  cases hwalk
  refine ⟨hmem, fun other hother => ?_⟩
  have hsize : links.size = column.length := by
    rw [← Array.length_toList, hlinks, List.length_map, length_sortedPlaces]
  rw [← Array.mem_toList_iff, hlinks] at hother
  obtain ⟨place, hplace, rfl⟩ := List.mem_map.1 hother
  rw [linkPlace_link_mod]
  exact Nat.lt_of_le_of_lt (Nat.mod_le _ _) (hsize ▸ mem_sortedPlaces.1 hplace)

/-! ## Bytes of a readout -/

namespace Readout

/-- The next `count` bytes of the walk under their masks. -/
def nextBytes : (count : Nat) → Readout → Except Fault (List UInt8 × Readout)
  | 0, r => .ok ([], r)
  | count + 1, r =>
    match r.nextByte with
    | .error fault => .error fault
    | .ok (byte, r) =>
      match nextBytes count r with
      | .error fault => .error fault
      | .ok (rest, r) => .ok (byte :: rest, r)

theorem nextBytes_of_supplies {r : Readout} (h : Supplies r.walk r.masks bytes) :
    ∃ after, r.nextBytes bytes.length = .ok (bytes, after) ∧ after.walk.left = 0 := by
  induction bytes generalizing r with
  | nil => exact ⟨r, rfl, h⟩
  | cons byte rest ih =>
    obtain ⟨walk, masks, last, equal, copies, crc, stored⟩ := r
    obtain ⟨-, walk', masks', hrest, hnext⟩ := h
    obtain ⟨after, hafter, hend⟩ :=
      ih (r := ⟨walk', masks', last, equal, copies, crc, stored⟩) hrest
    refine ⟨after, ?_, hend⟩
    simp only [List.length_cons, nextBytes, hnext, hafter]

theorem nextBytes_start (h : walk.Gives bytes) (randomised : Bool) (stored : UInt32) :
    ∃ after, (start walk randomised stored).nextBytes walk.left =
      .ok (Stream.masked randomised bytes, after) ∧ after.walk.left = 0 := by
  have hsupplies : Supplies walk (if randomised then some Randomiser.start else none)
      (Stream.masked randomised bytes) := supplies_masked h randomised
  rw [hsupplies.left_eq]
  exact nextBytes_of_supplies (r := start walk randomised stored) hsupplies

end Readout

/-! ## Unsorting -/

/-- Whatever its bytes are, a block is linked by the links of all its places, in the order of the
bytes, and a walk gives as many bytes as the block has. If the block is the last column of the
sorted rotations of some data, a walk from any row that equals the data gives the data. -/
theorem Walk.unsorts (h : Histogram counts column) (hpointer : pointer < column.length)
    (stored : UInt32) :
    ∃ walk bytes after, Walk.start column.toArray counts pointer = .ok walk ∧
      walk.links.toList.Perm
        ((List.range column.length).map fun place => link place (column.getD place 0)) ∧
      (walk.links.toList.map linkByte).Pairwise (· ≤ ·) ∧
      (column.length ≤ 2 ^ 24 → walk.Linked column) ∧
      (Readout.start walk false stored).nextBytes column.length = .ok (bytes, after) ∧
      bytes.length = column.length ∧ after.walk.left = 0 ∧
      ∀ data, data.length ≤ 2 ^ 24 → column = lastColumn data →
        (sorted data)[pointer]? = some data → bytes = data := by
  obtain ⟨links, current, hstart, -, hlinks⟩ := Walk.start_eq h hpointer
  obtain ⟨bytes, hlength, hgives⟩ := Walk.gives_of_closed (Walk.closed_start h hstart)
  obtain ⟨after, hbytes, hend⟩ := Readout.nextBytes_start hgives false stored
  refine ⟨_, bytes, after, hstart, ?_, ?_, fun hle => Walk.linked_start h hle hstart, hbytes,
    hlength, hend, fun data hle hcolumn hrow => ?_⟩
  · rw [hlinks]
    exact (sortedPlaces_perm column).map _
  · rw [hlinks, List.map_map]
    simp only [Function.comp_def, linkByte_link]
    exact pairwise_map_sortedPlaces column
  · have hcolumnLength : column.length ≤ 2 ^ 24 := by rwa [hcolumn, length_lastColumn]
    obtain ⟨walk, hwalk, hunsort⟩ := Walk.gives_start h hcolumnLength hpointer
    rw [hstart] at hwalk
    cases hwalk
    rw [hgives.unique hunsort, hcolumn, unsort_lastColumn hrow]

/-- Data of two equal halves stand in two rows; the second of them will do. -/
theorem Walk.unsorts_periodic :
    ∃ walk after, Walk.start #[98, 98, 97, 97]
        (((Array.replicate 256 0).modify 98 (· + 2)).modify 97 (· + 2)) 1 = .ok walk ∧
      (Readout.start walk false 0).nextBytes 4 = .ok ([97, 98, 97, 98], after) := by
  have hcounts : Histogram (((Array.replicate 256 0).modify 98 (· + 2)).modify 97 (· + 2))
      [98, 98, 97, 97] :=
    (Histogram.nil.append_replicate 98 2).append_replicate 97 2
  have hrows : sorted [97, 98, 97, 98] =
      [[97, 98, 97, 98], [97, 98, 97, 98], [98, 97, 98, 97], [98, 97, 98, 97]] :=
    sorted_eq (by decide) (by decide)
  obtain ⟨walk, bytes, after, hstart, -, -, -, hbytes, -, -, hdata⟩ :=
    Walk.unsorts hcounts (show 1 < 4 by decide) 0
  obtain rfl : bytes = [97, 98, 97, 98] :=
    hdata _ (by decide) (by rw [lastColumn, hrows]; rfl) (by rw [hrows]; rfl)
  exact ⟨walk, after, hstart, hbytes⟩

end Bunzip.Block
