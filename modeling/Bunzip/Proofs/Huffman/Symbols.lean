import Bunzip.Huffman.Setup
import Bunzip.Proofs.Huffman.Search
import Bunzip.Proofs.Scan.Taken

/-!
# The code word of a decoded symbol

The converse of `Table.reads_decode`: what a search takes from the unread bits is the canonical code
word of the symbol it gives (`Table.tells_decode`), whether or not the code lengths keep Kraft's
inequality. As long as the bits lie above the ends of the rows passed so far, the number they write
is not below the first word of the next row; so where the search stops, the number less this first
word is a rank in the row.
-/

namespace Bunzip.Huffman

open Scan Canonical

variable {lengths : List Nat} {length symbol rank : Nat} {front : List Bool}

theorem exists_rank (h : rank < lengths.count length) :
    ∃ symbol, lengths[symbol]? = some length ∧ (lengths.take symbol).count length = rank := by
  induction lengths generalizing rank with
  | nil => cases h
  | cons l lengths ih =>
    rw [List.count_cons] at h
    by_cases hl : l = length
    · subst hl
      cases rank with
      | zero => exact ⟨0, rfl, rfl⟩
      | succ rank =>
        obtain ⟨symbol, hsymbol, hrank⟩ := ih (by simpa using h)
        exact ⟨symbol + 1, hsymbol, by rw [List.take_succ_cons, List.count_cons_self, hrank]⟩
    · obtain ⟨symbol, hsymbol, hrank⟩ := ih (by simpa [hl] using h)
      exact ⟨symbol + 1, hsymbol, by rw [List.take_succ_cons, List.count_cons_of_ne hl, hrank]⟩

theorem Canonical.codeWord?_of_rank (hsymbol : lengths[symbol]? = some front.length)
    (hword : Bits.value front =
      firstWord lengths front.length + (lengths.take symbol).count front.length) :
    codeWord? lengths symbol = some front := by
  have hlt := Bits.value_lt front
  rw [hword] at hlt
  rw [codeWord?, hsymbol]
  simp only [if_pos hlt]
  rw [← hword, Bits.ofNat_value]

namespace Table

theorem tells_search_nil {symbols : Array Nat} {left word : Nat}
    {P : List Bool → Nat → Prop} : Tells (search symbols left word []) P := by
  induction left generalizing word P with
  | zero => exact tells_fail _
  | succ left ih => exact (tells_number 1).bind fun bit _ _ => ih

theorem tells_symbol {symbols : Array Nat} {shortest total : Nat}
    (hsymbols : symbols = ((List.range' shortest total).flatMap (symbolsOfLength lengths)).toArray)
    (hshortest : ∀ l ∈ lengths, shortest ≤ l) (hge : shortest ≤ front.length)
    (hlt : front.length < shortest + total)
    (hfirst : firstWord lengths front.length ≤ Bits.value front)
    (hend : Bits.value front < endWord lengths front.length) :
    Tells (Row.symbol ⟨firstWord lengths front.length, endWord lengths front.length,
      shorterCount lengths front.length⟩ symbols (Bits.value front)) fun back symbol =>
        codeWord? lengths symbol = some (front ++ back) := by
  have hrank : Bits.value front - firstWord lengths front.length < lengths.count front.length := by
    unfold endWord at hend
    omega
  obtain ⟨symbol, hsymbol, hplace⟩ := exists_rank hrank
  have hget := getElem?_flatMap_symbolsOfLength hge hlt hrank
  rw [← hplace, getElem?_symbolsOfLength hsymbol, shorterCount_eq_zero hshortest, Nat.sub_zero,
    hplace] at hget
  have hfound : symbols[shorterCount lengths front.length +
      (Bits.value front - firstWord lengths front.length)]? = some symbol := by
    rw [hsymbols, List.getElem?_toArray, hget]
  unfold Row.symbol
  simp only [hfound]
  refine tells_pure ?_
  rw [List.append_nil]
  exact codeWord?_of_rank hsymbol (by rw [hplace]; omega)

/-- The bits that a search takes complete the code word of its symbol. -/
theorem tells_search {symbols : Array Nat} {shortest total count : Nat} (left : Nat)
    (hsymbols : symbols = ((List.range' shortest total).flatMap (symbolsOfLength lengths)).toArray)
    (hshortest : ∀ l ∈ lengths, shortest ≤ l) (hge : shortest ≤ front.length)
    (hcount : front.length + count = shortest + total)
    (hfirst : firstWord lengths front.length ≤ Bits.value front) :
    Tells (search symbols left (Bits.value front) (rowsFrom lengths count front.length
      (firstWord lengths front.length) (shorterCount lengths front.length))) fun back symbol =>
        codeWord? lengths symbol = some (front ++ back) := by
  induction left generalizing front count with
  | zero =>
    cases count with
    | zero => exact tells_search_nil
    | succ count =>
      rw [rowsFrom_succ]
      by_cases hlt : Bits.value front < endWord lengths front.length
      · rw [search_of_lt hlt]
        exact tells_symbol hsymbols hshortest hge (by omega) hfirst hlt
      · rw [search, List.head?_cons, Option.filter_some_neg (by simpa using hlt)]
        exact tells_fail _
  | succ left ih =>
    cases count with
    | zero => exact tells_search_nil
    | succ count =>
      rw [rowsFrom_succ]
      by_cases hlt : Bits.value front < endWord lengths front.length
      · rw [search_of_lt hlt]
        exact tells_symbol hsymbols hshortest hge (by omega) hfirst hlt
      · rw [search_of_le (Nat.le_of_not_lt hlt)]
        refine (tells_number 1).bind ?_
        rintro bit word ⟨hword, hbit⟩
        have hlength : (front ++ word).length = front.length + 1 := by
          rw [List.length_append, hword, Bits.length_ofNat]
        have hvalue : Bits.value (front ++ word) = 2 * Bits.value front + bit := by
          rw [Bits.value_append, hword, Bits.length_ofNat, Bits.value_ofNat,
            Nat.mod_eq_of_lt hbit]
          omega
        -- the first word of the next row is twice the end of this one
        have hrow : firstWord lengths (front.length + 1) = 2 * endWord lengths front.length := rfl
        have hrest : Tells (search symbols left (Bits.value (front ++ word))
            (rowsFrom lengths count (front ++ word).length
              (firstWord lengths (front ++ word).length)
              (shorterCount lengths (front ++ word).length))) fun back symbol =>
                codeWord? lengths symbol = some (front ++ word ++ back) :=
          ih (by omega) (by omega) (by rw [hlength, hrow, hvalue]; omega)
        rw [hlength, hvalue] at hrest
        exact hrest.mono fun back symbol h => by rwa [← List.append_assoc]

/-- What a table takes is the code word of the symbol it gives. -/
theorem tells_decode (lengths : List Nat) :
    Tells (ofLengths lengths).decode fun word symbol => codeWord? lengths symbol = some word := by
  have hleast : ∀ l ∈ lengths, lengths.min?.getD 1 ≤ l := fun l hl => List.min?_getD_le_of_mem hl
  unfold decode ofLengths
  generalize lengths.min?.getD 1 = shortest at hleast ⊢
  have hfirst := firstWord_eq_zero hleast
  have hshorter := shorterCount_eq_zero hleast
  refine (tells_number shortest).bind fun value front ⟨hfront, hlt⟩ => ?_
  have hlength : front.length = shortest := by rw [hfront, Bits.length_ofNat]
  have hvalue : Bits.value front = value := by
    rw [hfront, Bits.value_ofNat, Nat.mod_eq_of_lt hlt]
  have hsearch := tells_search (Format.maxSearch - shortest) rfl hleast (Nat.le_of_eq hlength.symm)
    (show front.length + (lengths.max?.getD 0 + 1 - shortest) = _ by rw [hlength])
    (by rw [hlength, hfirst]; exact Nat.zero_le _)
  rw [hlength, hvalue, hfirst, hshorter] at hsearch
  exact hsearch

end Table

/-- What a decoder takes is the code word of the symbol it gives, in the table of its group. -/
theorem Decoder.tells_next {d : Decoder} {known : List (List Nat)}
    (htables : d.tables = (known.map Table.ofLengths).toArray) :
    Tells d.next fun word (symbol, after) =>
      after = ⟨d.tables, d.selectors, d.position + 1⟩ ∧ ∃ table lengths,
        d.selectors[d.position / Format.groupSize]? = some table ∧ known[table]? = some lengths ∧
          codeWord? lengths symbol = some word := by
  unfold next
  cases hselector : d.selectors[d.position / Format.groupSize]? with
  | none => exact tells_fail _
  | some table =>
    simp only
    cases htable : d.tables[table]? with
    | none => exact tells_fail _
    | some chosen =>
      simp only
      rw [htables, List.getElem?_toArray, List.getElem?_map] at htable
      obtain ⟨lengths, hlengths, rfl⟩ := Option.map_eq_some_iff.1 htable
      refine (Table.tells_decode lengths).bind fun symbol word hword => tells_pure ⟨rfl, ?_⟩
      rw [List.append_nil]
      exact ⟨table, lengths, rfl, hlengths, hword⟩

end Bunzip.Huffman
