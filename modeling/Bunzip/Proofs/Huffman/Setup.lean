import Bunzip.Huffman.Setup
import Bunzip.Proofs.Huffman.Search
import Mathlib.Data.List.GetD

/-!
# Filling a setup

Selectors and code lengths are stored one after the other. `Selecting` and `Filled` say which of
them a setup knows so far; `Selecting.setSelector` and `Filled.setLength` add one more. A setup that
knows all code lengths gives the decoder of their tables (`Filled.decoder_eq`).
-/

namespace Bunzip.Huffman

variable {setup : Setup}

namespace Setup

/-! ## Selectors -/

/-- The selectors `done` are stored, `left` are still to come, and `order` are the tables in the
order of their last use. -/
structure Selecting (setup : Setup) (done : List Nat) (left : Nat) (order : List UInt8) :
    Prop where
  selectors : setup.selectors.toList = done ++ List.replicate left 0
  recents : setup.recents.toList = order
  length_order : order.length = setup.tables

theorem selecting_start {tables : Nat} (alphabet count : Nat) (h : tables ≤ 256) :
    ((start tables alphabet).setSelectorCount count).Selecting [] count
      ((List.range tables).map UInt8.ofNat) := by
  refine ⟨by simp [setSelectorCount], ?_, by simp [setSelectorCount, start]⟩
  simp [setSelectorCount, start, MoveToFront.ofSize, MoveToFront.toList, Nat.min_eq_left h]

theorem Selecting.size_selectors {done : List Nat} {left : Nat} {order : List UInt8}
    (h : setup.Selecting done left order) : setup.selectors.size = done.length + left := by
  rw [← Array.length_toList, h.selectors, List.length_append, List.length_replicate]

/-- The position of a table stores it as the next selector. -/
theorem Selecting.setSelector {done : List Nat} {left position : Nat} {order : List UInt8}
    {table : UInt8} (h : setup.Selecting done (left + 1) order)
    (htable : order[position]? = some table) :
    ∃ after, setup.setSelector done.length position = .ok after ∧
      after.Selecting (done ++ [table.toNat]) left (table :: order.eraseIdx position) ∧
      after.tables = setup.tables ∧ after.alphabet = setup.alphabet ∧
      after.lengths = setup.lengths := by
  have hsize := h.size_selectors
  obtain ⟨hlt, hget⟩ := List.getElem?_eq_some_iff.1 htable
  obtain ⟨tables, alphabet, selectors, recents, lengths⟩ := setup
  obtain ⟨hselectors, hrecents, hlength⟩ := h
  simp only at hselectors hrecents hlength hsize
  subst hrecents
  obtain ⟨next, htake, hnext⟩ := recents.take?_eq_some position hlt
  rw [hget] at htake hnext
  refine ⟨⟨tables, alphabet, selectors.setIfInBounds done.length table.toNat, next, lengths⟩, ?_,
    ⟨?_, hnext, ?_⟩, rfl, rfl, rfl⟩
  · have hposition : ¬ tables ≤ position := by omega
    have hindex : done.length < selectors.size := by omega
    simp only [Setup.setSelector, if_neg hposition, htake, if_pos hindex]
  · rw [Array.toList_setIfInBounds, hselectors, List.set_append_right _ _ (Nat.le_refl _),
      Nat.sub_self, List.replicate_succ, List.set_cons_zero, List.append_assoc]
    rfl
  · rw [List.length_cons, List.length_eraseIdx_of_lt hlt]
    simp only
    omega

/-! ## Code lengths -/

/-- The first code lengths of a table are stored. -/
def Knows (setup : Setup) (table : Nat) (lengths : List Nat) : Prop :=
  ∃ row, setup.lengths[table]? = some row ∧ row.size = Format.maxAlphabet ∧
    row.toList.take lengths.length = lengths

/-- The first code lengths of each table are stored, none of the tables behind the last. -/
def Filled (setup : Setup) (known : List (List Nat)) : Prop :=
  ∀ table < Format.maxTables, setup.Knows table (known.getD table [])

theorem filled_start (tables alphabet : Nat) : (start tables alphabet).Filled [] := by
  intro table htable
  exact ⟨Array.replicate Format.maxAlphabet 0, by simp [start, htable], Array.size_replicate, rfl⟩

theorem Filled.congr {known : List (List Nat)} {after : Setup} (h : setup.Filled known)
    (hlengths : after.lengths = setup.lengths) : after.Filled known := by
  intro table htable
  obtain ⟨row, hrow, hknown⟩ := h table htable
  exact ⟨row, hlengths ▸ hrow, hknown⟩

theorem Filled.append_nil {known : List (List Nat)} (h : setup.Filled known) :
    setup.Filled (known ++ [[]]) := by
  intro table htable
  have hknows := h table htable
  rcases Nat.lt_trichotomy table known.length with hlt | rfl | hgt
  · rwa [List.getD_append _ _ _ _ hlt]
  · rw [List.getD_append_right _ _ _ _ (Nat.le_refl _), Nat.sub_self]
    obtain ⟨row, hrow, hsize, -⟩ := hknows
    exact ⟨row, hrow, hsize, rfl⟩
  · rw [List.getD_eq_default _ _ (Nat.le_of_lt hgt)] at hknows
    rwa [List.getD_eq_default _ _ (by simpa using Nat.succ_le_of_lt hgt)]

/-- A code length within the limits is stored behind the others of its table. -/
theorem Filled.setLength {done : List (List Nat)} {current : List Nat} {length : Int32}
    (h : setup.Filled (done ++ [current])) (hdone : done.length < Format.maxTables)
    (hcurrent : current.length < Format.maxAlphabet)
    (hlength : 1 ≤ length.toInt ∧ length.toInt ≤ Format.maxCodeLength) :
    ∃ after, setup.setLength done.length current.length length = .ok after ∧
      after.Filled (done ++ [current ++ [length.toInt.toNat]]) ∧ after.tables = setup.tables ∧
      after.alphabet = setup.alphabet ∧ after.selectors = setup.selectors := by
  obtain ⟨tables, alphabet, selectors, recents, lengths⟩ := setup
  refine ⟨⟨tables, alphabet, selectors, recents,
    lengths.modify done.length (·.setIfInBounds current.length length.toInt.toNat)⟩, ?_, ?_, rfl,
    rfl, rfl⟩
  · simp only [Setup.setLength, if_pos hlength, if_pos (And.intro hdone hcurrent)]
  intro table htable
  obtain ⟨row, hrow, hsize, htake⟩ := h table htable
  simp only at hrow
  rcases Nat.lt_trichotomy table done.length with hlt | rfl | hgt
  · rw [List.getD_append _ _ _ _ hlt] at htake ⊢
    refine ⟨row, ?_, hsize, htake⟩
    simp only [Array.getElem?_modify, if_neg (Nat.ne_of_gt hlt), hrow]
  · rw [List.getD_append_right _ _ _ _ (Nat.le_refl _), Nat.sub_self] at htake ⊢
    refine ⟨row.setIfInBounds current.length length.toInt.toNat, ?_, by simpa using hsize, ?_⟩
    · simp only [Array.getElem?_modify, if_pos, hrow, Option.map_some]
    · have hroom : current.length < row.toList.length := Nat.lt_of_lt_of_eq hcurrent hsize.symm
      simp only [List.getD_cons_zero, List.length_append, List.length_singleton] at htake ⊢
      rw [Array.toList_setIfInBounds, List.take_add_one, List.take_set_of_le (Nat.le_refl _),
        htake, List.getElem?_set_self hroom]
      rfl
  · have hbehind (last : List Nat) : (done ++ [last]).getD table [] = [] :=
      List.getD_eq_default _ _ (by simpa using Nat.succ_le_of_lt hgt)
    rw [hbehind]
    refine ⟨row, ?_, hsize, rfl⟩
    simp only [Array.getElem?_modify, if_neg (Nat.ne_of_lt hgt), hrow]

theorem bounds_of_setLength {table symbol : Nat} {length : Int32} {after : Setup}
    (h : setup.setLength table symbol length = .ok after) :
    1 ≤ length.toInt ∧ length.toInt ≤ Format.maxCodeLength := by
  unfold Setup.setLength at h
  simp only at h
  split at h
  · assumption
  · cases h

theorem setLength_of_outside {length : Int32} (table symbol : Nat)
    (h : ¬ (1 ≤ length.toInt ∧ length.toInt ≤ Format.maxCodeLength)) :
    setup.setLength table symbol length = .error (.stream (.invalidCodeLength length)) := by
  unfold Setup.setLength
  exact if_neg h

theorem Filled.tableLengths_eq {known : List (List Nat)} {table : Nat} (h : setup.Filled known)
    (hle : known.length ≤ Format.maxTables) (htable : table < known.length)
    (hlength : known[table].length = setup.alphabet) : setup.tableLengths table = known[table] := by
  obtain ⟨row, hrow, -, htake⟩ := h table (by omega)
  rw [List.getD_eq_getElem?_getD, List.getElem?_eq_getElem htable, Option.getD_some,
    hlength] at htake
  rw [tableLengths, Array.getD_eq_getD_getElem?, hrow, Option.getD_some, htake]

/-- With all code lengths stored, the tables are those of the code lengths. -/
theorem Filled.decoder_eq {known : List (List Nat)} (h : setup.Filled known)
    (htables : setup.tables = known.length) (hle : known.length ≤ Format.maxTables)
    (halphabet : setup.alphabet ≤ Format.maxAlphabet)
    (hlengths : ∀ lengths ∈ known, lengths.length = setup.alphabet) :
    setup.decoder = .ok ⟨(known.map Table.ofLengths).toArray, setup.selectors, 0⟩ := by
  rw [decoder, if_pos ⟨by omega, .inr halphabet⟩, htables]
  congr 3
  refine List.ext_getElem (by simp) fun table ht ht' => ?_
  rw [List.length_map, List.length_range] at ht
  rw [List.getElem_map, List.getElem_map, List.getElem_range,
    h.tableLengths_eq hle ht (hlengths _ (List.getElem_mem ht))]

end Setup

end Bunzip.Huffman
