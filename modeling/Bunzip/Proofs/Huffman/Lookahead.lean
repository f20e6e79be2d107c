import Bunzip.Huffman.Setup
import Bunzip.Proofs.Scan.Word

/-!
# Look-ahead of the code tables

A search begins with the shortest length of its table and adds bits up to the longest search. So the
bits of a longest search decide it, if the shortest length is not beyond that (`Searchable`). The
code lengths that a block stores keep this bound (`Setup.Bounded`).
-/

namespace Bunzip.Huffman

open Scan

def Decoder.Searchable (d : Decoder) : Prop :=
  ∀ table ∈ d.tables, table.shortest ≤ Format.maxSearch

/-- There are not too many tables, and no code length is too long. -/
structure Setup.Bounded (setup : Setup) : Prop where
  tables_le : setup.tables ≤ Format.maxTables
  lengths_le : ∀ row ∈ setup.lengths, ∀ length ∈ row, length ≤ Format.maxCodeLength

/-! ## Searches -/

theorem Row.decided_symbol (row : Row) (symbols : Array Nat) (word : Nat) :
    Decided 0 (row.symbol symbols word) := by
  unfold Row.symbol
  split
  · exact decided_pure 0 _
  · exact decided_fail 0 _

theorem Table.decided_search (symbols : Array Nat) (left word : Nat) (rows : List Row) :
    Decided left (search symbols left word rows) := by
  induction left generalizing word rows with
  | zero =>
    unfold search
    split
    · exact Row.decided_symbol _ _ _
    · exact decided_fail 0 _
  | succ left ih =>
    unfold search
    split
    · exact (Row.decided_symbol _ _ _).mono (Nat.zero_le _)
    · exact ((decided_number 1).bind fun bit => ih _ _).mono (by omega)

theorem Table.decided_decode {table : Table} (h : table.shortest ≤ Format.maxSearch) :
    Decided Format.maxSearch table.decode :=
  ((decided_number _).bind fun word => decided_search _ _ word _).mono (by omega)

/-- The bits of a longest search decide the next symbol. -/
theorem Decoder.decided_next {d : Decoder} (h : d.Searchable) :
    Decided Format.maxSearch d.next := by
  unfold next
  split
  · exact decided_fail _ _
  · split
    · exact decided_fail _ _
    · rename_i table htable
      have hmem : table ∈ d.tables := Array.mem_of_getElem? htable
      exact (Table.decided_decode (h table hmem)).first fun _ => decided_pure 0 _

theorem Decoder.Searchable.next {d after : Decoder} {r rest : BitReader} {symbol : Nat}
    (h : d.Searchable) (hnext : d.next r = .ok (symbol, after) rest) : after.Searchable := by
  intro table htable
  rw [(Decoder.next_eq_ok hnext).2.1] at htable
  exact h table htable

/-! ## Stored code lengths -/

theorem Table.shortest_le {lengths : List Nat} (bound : Nat) (hbound : 1 ≤ bound)
    (h : ∀ length ∈ lengths, length ≤ bound) : (ofLengths lengths).shortest ≤ bound := by
  show lengths.min?.getD 1 ≤ bound
  cases hmin : lengths.min? with
  | none => exact hbound
  | some least => exact h least (List.min?_mem hmin)

namespace Setup

theorem bounded_start {tables alphabet : Nat} (h : tables ≤ Format.maxTables) :
    (start tables alphabet).Bounded := by
  refine ⟨h, fun row hrow length hlength => ?_⟩
  obtain ⟨_, rfl⟩ := Array.mem_replicate.1 hrow
  obtain ⟨_, rfl⟩ := Array.mem_replicate.1 hlength
  exact Nat.zero_le _

theorem Bounded.setSelectorCount {setup : Setup} (h : setup.Bounded) (count : Nat) :
    (setup.setSelectorCount count).Bounded := ⟨h.tables_le, h.lengths_le⟩

theorem Bounded.setSelector {setup after : Setup} {index position : Nat} (h : setup.Bounded)
    (hset : setup.setSelector index position = .ok after) : after.Bounded := by
  obtain ⟨tables, alphabet, selectors, recents, lengths⟩ := setup
  simp only [Setup.setSelector] at hset
  split at hset
  · cases hset
  split at hset
  · cases hset
  split at hset
  · cases hset; exact ⟨h.tables_le, h.lengths_le⟩
  · cases hset

theorem Bounded.setLength {setup after : Setup} {table symbol : Nat} {length : Int32}
    (h : setup.Bounded) (hset : setup.setLength table symbol length = .ok after) :
    after.Bounded := by
  obtain ⟨tables, alphabet, selectors, recents, lengths⟩ := setup
  simp only [Setup.setLength] at hset
  split at hset
  · rename_i hrange
    split at hset
    · cases hset
      refine ⟨h.tables_le, fun row hrow l hl => ?_⟩
      obtain ⟨i, hi, rfl⟩ := Array.mem_iff_getElem.1 hrow
      rw [Array.size_modify] at hi
      rw [Array.getElem_modify] at hl
      have hold : ∀ l ∈ lengths[i], l ≤ Format.maxCodeLength :=
        h.lengths_le _ (Array.getElem_mem hi)
      split at hl
      · rcases Array.mem_or_eq_of_mem_setIfInBounds hl with hmem | rfl
        · exact hold l hmem
        · omega
      · exact hold l hl
    · cases hset
  · cases hset

theorem searchable_decoder {setup : Setup} {d : Decoder} (h : setup.Bounded)
    (hd : setup.decoder = .ok d) : d.Searchable := by
  unfold decoder at hd
  split at hd
  · cases hd
    intro table htable
    simp only [List.mem_toArray, List.mem_map] at htable
    obtain ⟨index, _, rfl⟩ := htable
    refine Nat.le_trans (Table.shortest_le Format.maxCodeLength (by decide) ?_)
      (by decide)
    intro length hlength
    have hmem := List.mem_of_mem_take hlength
    rw [Array.mem_toList_iff] at hmem
    by_cases hindex : index < setup.lengths.size
    · rw [Array.getD_eq_getD_getElem?, Array.getElem?_eq_getElem hindex] at hmem
      exact h.lengths_le _ (Array.getElem_mem hindex) length hmem
    · rw [Array.getD_eq_getD_getElem?, Array.getElem?_eq_none (by omega)] at hmem
      simp at hmem
  · cases hd

end Setup

end Bunzip.Huffman
