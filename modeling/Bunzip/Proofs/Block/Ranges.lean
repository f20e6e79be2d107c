import Bunzip.Proofs.Block.Payload
import Bunzip.Proofs.Huffman.Ranges
import Bunzip.Proofs.Randomiser

/-!
# Where a block is read and written

The places that an expansion looks at are those of bytes that the block uses
(`Expansion.Holds.inRange`), and the links of a complete block lead through all of its places
(`Walk.Linked`). So a token can only be refused for want of room, a complete block only for its
pointer, and its data are read out without fault (`Readout.InRange.read`).
-/

namespace Bunzip.Block

open Rotations

variable {column : List UInt8} {fault : Fault}

/-! ## Expansions -/

namespace Expansion

/-- The bytes that the block uses, the table of recent ones and the counts have their sizes, and
what was given and counted so far fits in the block. -/
structure InRange (e : Expansion) : Prop where
  used_le : e.used.size ≤ 256
  current_lt : e.current < e.used.size
  recents_lt : ∀ position < e.used.size,
    ∃ place, e.recents.order[position]? = some place ∧ place.toNat < e.used.size
  histogram : Histogram e.counts e.bytes.toList
  fits : e.bytes.size + e.run ≤ e.limit
  limit_le : e.limit ≤ 9 * Format.blockUnit

variable {e after : Expansion} {order : List UInt8}

theorem Holds.inRange (h : e.Holds order) (hused : e.used.size ≤ 256)
    (hfits : e.bytes.size + e.run ≤ e.limit) (hlimit : e.limit ≤ 9 * Format.blockUnit) :
    e.InRange := by
  obtain ⟨byte, rest, horder⟩ := List.exists_cons_of_ne_nil h.ne_nil
  have hcurrent : e.used[e.current]? = some byte := by
    rw [h.current, horder]
    rfl
  refine ⟨hused, (Array.getElem?_eq_some_iff.1 hcurrent).1, fun position hposition => ?_,
    ⟨h.size_counts, h.counts⟩, hfits, hlimit⟩
  rw [← h.length_eq] at hposition
  obtain ⟨place, hplace, hbyte⟩ := h.recents position _ (List.getElem?_eq_getElem hposition)
  refine ⟨place, ?_, (Array.getElem?_eq_some_iff.1 hbyte).1⟩
  rw [← hplace, MoveToFront.toList, Array.getElem?_toList]

/-- A token that names a used byte is only refused for want of room. -/
theorem Holds.fault_of_accept (h : e.Holds order) {token : Token}
    (htoken : ∀ position, token = .recent position → position < order.length)
    (haccept : e.accept token = .error fault after) : fault = .stream .blockOverflow := by
  have hcount (copies : Nat) (herror : e.count copies = .error fault after) :
      fault = .stream .blockOverflow := by
    unfold Expansion.count at herror
    simp only at herror
    split at herror
    · cases herror
      rfl
    · cases herror
  cases token with
  | runA => exact hcount _ haccept
  | runB => exact hcount _ haccept
  | recent position =>
    obtain ⟨mid, hflush, hmid, -⟩ := h.flush
    simp only [Expansion.accept, hflush] at haccept
    by_cases hfits : mid.bytes.size + 1 ≤ mid.limit
    · obtain ⟨other, hother, -⟩ :=
        hmid.append (List.getElem?_eq_getElem (htoken position rfl)) hfits
      rw [hother] at haccept
      cases haccept
    · unfold Expansion.append at haccept
      simp only [if_pos (Nat.lt_of_not_le hfits)] at haccept
      cases haccept
      rfl
  | finish =>
    obtain ⟨other, hother, -⟩ := h.accept_finish []
    rw [hother] at haccept
    cases haccept

end Expansion

/-! ## Walks -/

/-- The links lead to each place of the column once, with the byte that stands there. -/
structure Walk.Linked (column : List UInt8) (walk : Walk) : Prop where
  size_eq : walk.links.size = column.length
  places : (walk.links.toList.map linkPlace).Perm (List.range column.length)
  bytes : ∀ link ∈ walk.links, column[linkPlace link]? = some (linkByte link)
  current_mem : walk.current ∈ walk.links

theorem Walk.Linked.next {walk : Walk} (h : walk.Linked column) :
    ∃ byte after, walk.next = .ok (byte, after) ∧ after.Linked column := by
  have hmem := List.mem_map_of_mem (f := linkPlace) (Array.mem_toList_iff.2 h.current_mem)
  have hlt := List.mem_range.1 (h.places.mem_iff.1 hmem)
  rw [← h.size_eq] at hlt
  refine ⟨linkByte walk.current, ⟨walk.links, walk.links[linkPlace walk.current], walk.left - 1⟩,
    ?_, h.size_eq, h.places, h.bytes, Array.getElem_mem hlt⟩
  rw [Walk.next, Array.getElem?_eq_getElem hlt]

/-- A block that can be begun is linked; the places fit in the links. -/
theorem Walk.linked_start {counts : Array Nat} {pointer : Nat} {walk : Walk}
    (h : Histogram counts column) (hlength : column.length ≤ 2 ^ 24)
    (hstart : Walk.start column.toArray counts pointer = .ok walk) : walk.Linked column := by
  obtain ⟨links, hsort, hsize, hlinks⟩ := sortLinks_sortedPlaces h
  have hlink (k : Nat) (hk : k < column.length) : ∃ place < column.length,
      (sortedPlaces column)[k]? = some place ∧
        ∃ link, links[k]? = some link ∧ linkPlace link = place ∧
          linkByte link = column.getD place 0 := by
    obtain ⟨place, hplace, heq, hget⟩ := hlinks k hk
    refine ⟨place, hplace, ?_, _, hget, linkPlace_link _ _ (by omega), linkByte_link _ _⟩
    rw [← heq, List.getD_eq_getElem?_getD, List.getElem?_eq_getElem (by simpa using hk)]
    rfl
  unfold Walk.start at hstart
  rw [List.size_toArray, hsort] at hstart
  split at hstart
  · cases hstart
  simp only at hstart
  split at hstart
  · cases hstart
  rename_i current hcurrent
  cases hstart
  refine ⟨hsize, ?_, fun link hlink' => ?_, Array.mem_of_getElem? hcurrent⟩
  · have hplaces : links.toList.map linkPlace = sortedPlaces column := by
      refine List.ext_getElem (by simp [hsize]) fun k hk hk' => ?_
      obtain ⟨place, -, hsorted, link, hget, hplace, -⟩ := hlink k (by simpa using hk')
      rw [List.getElem?_eq_getElem hk'] at hsorted
      rw [← Array.getElem?_toList, List.getElem?_eq_getElem (by simpa using hk)] at hget
      rw [List.getElem_map, Option.some.inj hget, Option.some.inj hsorted, hplace]
    rw [hplaces]
    exact sortedPlaces_perm column
  · obtain ⟨k, hk, heq⟩ := Array.mem_iff_getElem.1 hlink'
    obtain ⟨place, hplace, -, other, hget, rfl, hbyte⟩ := hlink k (hsize ▸ hk)
    rw [Array.getElem?_eq_getElem hk, heq] at hget
    cases hget
    rw [List.getElem?_eq_getElem hplace, hbyte, List.getD_eq_getElem?_getD,
      List.getElem?_eq_getElem hplace]
    rfl

/-! ## Readouts -/

namespace Readout

/-- The walk is linked, and a flip is still to come. -/
structure InRange (column : List UInt8) (r : Readout) : Prop where
  linked : r.walk.Linked column
  left_pos : ∀ masks, r.masks = some masks → 0 < masks.left

variable {r after : Readout}

theorem InRange.nextByte (h : r.InRange column) :
    ∃ byte after, r.nextByte = .ok (byte, after) ∧ after.InRange column := by
  obtain ⟨walk, masks, last, equal, copies, crc, stored⟩ := r
  obtain ⟨byte, next, hnext, hlinked⟩ := h.linked.next
  simp only [Readout.nextByte, hnext]
  cases masks with
  | none => exact ⟨byte, _, rfl, hlinked, nofun⟩
  | some masks =>
    refine ⟨_, _, rfl, hlinked, fun after hafter => ?_⟩
    have hpos : 0 < masks.left := h.left_pos masks rfl
    cases hafter
    unfold Randomiser.next
    split
    · exact Nat.lt_of_succ_lt (Randomiser.intervals_range _).1
    · exact Nat.sub_pos_of_lt (by omega)

theorem InRange.fill (h : r.InRange column) :
    ∃ after, r.fill = .ok after ∧ after.InRange column ∧ 0 < after.copies := by
  obtain ⟨byte, mid, hmid, hrange⟩ := h.nextByte
  have hsupply (byte : UInt8) (equal copies : Nat) {r : Readout} (h : r.InRange column) :
      (r.supply byte equal copies).InRange column := ⟨h.linked, h.left_pos⟩
  simp only [Readout.fill, hmid]
  split
  · exact ⟨_, rfl, hsupply _ _ _ hrange, Nat.one_pos⟩
  split
  · exact ⟨_, rfl, hsupply _ _ _ hrange, Nat.one_pos⟩
  split
  · exact ⟨_, rfl, hsupply _ _ _ hrange, Nat.one_pos⟩
  · obtain ⟨count, last, hlast, hrange'⟩ := hrange.nextByte
    simp only [hlast]
    exact ⟨_, rfl, hsupply _ _ _ hrange', Nat.succ_pos _⟩

/-- A byte is read, or the data end. -/
theorem InRange.read (h : r.InRange column) :
    ∃ byte after, r.read = .ok (byte, after) ∧ after.InRange column := by
  unfold Readout.read
  split
  · exact ⟨_, _, rfl, h.linked, h.left_pos⟩
  split
  · exact ⟨_, _, rfl, h⟩
  · obtain ⟨after, hfill, hrange, -⟩ := h.fill
    simp only [hfill]
    exact ⟨_, _, rfl, hrange.linked, hrange.left_pos⟩

theorem fault_of_checkCrc (h : r.checkCrc = .error fault) :
    ∃ stored computed, fault = .stream (.blockCrcMismatch stored computed) := by
  unfold checkCrc at h
  split at h
  · cases h
  · cases h
    exact ⟨_, _, rfl⟩

end Readout

/-! ## Complete blocks -/

namespace Payload

/-- Tables and expansion are in range, and a symbol that stands for a position names a used byte. -/
structure InRange (p : Payload) : Prop where
  decoder : p.decoder.InRange (p.expansion.used.size + 2)
  expansion : p.expansion.InRange
  recent_lt : ∀ r symbol after next, p.decoder.next r = .ok (symbol, after) next →
    ∀ position, Token.ofSymbol (p.expansion.used.size % 2 ^ 16) symbol = .recent position →
      position < p.expansion.used.size

variable {p : Payload} {order : List UInt8}

theorem fault_of_readout (h : p.expansion.Holds order) (hsize : p.expansion.bytes.size ≤ 2 ^ 24)
    (hreadout : p.readout = .error fault) :
    fault = .stream (.invalidStartPointer p.head.pointer p.expansion.bytes.size) := by
  by_cases hpointer : p.head.pointer < p.expansion.bytes.size
  · obtain ⟨walk, hwalk, -⟩ := readout_of_holds h rfl hsize hpointer
    rw [hwalk] at hreadout
    cases hreadout
  · unfold readout Walk.start at hreadout
    rw [if_pos (Nat.le_of_not_lt hpointer)] at hreadout
    cases hreadout
    rfl

theorem inRange_readout {readout : Readout} (h : p.expansion.Holds order)
    (hsize : p.expansion.bytes.size ≤ 2 ^ 24) (hreadout : p.readout = .ok readout) :
    readout.InRange p.expansion.bytes.toList := by
  unfold Payload.readout at hreadout
  split at hreadout
  · cases hreadout
  rename_i walk hstart
  cases hreadout
  refine ⟨Walk.linked_start ⟨h.size_counts, h.counts⟩ hsize hstart, fun masks hmasks => ?_⟩
  unfold Readout.start at hmasks
  simp only at hmasks
  split at hmasks
  · cases hmasks
    decide
  · cases hmasks

end Payload

end Bunzip.Block
