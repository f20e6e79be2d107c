import Bunzip.Proofs.Huffman.Symbols
import Bunzip.Proofs.Scan.Faults

/-!
# Where a search looks

A search looks at one row for each length, and takes the rank of the number in its row for the place
of a symbol. `Table.Ranked` follows a search with any bits and says that this place exists; so the
only fault of a search is that its bits run out without a code word (`Decoder.fault_of_next`), also
where the code lengths ask for more words than there are.
-/

namespace Bunzip.Huffman

open Scan Canonical

variable {lengths : List Nat} {symbols : Array Nat} {left word length : Nat} {rows : List Row}

theorem Row.blames_symbol {P : Fault → Prop} {row : Row}
    (h : row.shorter + (word - row.first) < symbols.size) :
    Blames P (row.symbol symbols word) := by
  simp only [Row.symbol, Array.getElem?_eq_getElem h]
  exact blames_pure _

namespace Table

/-- Whatever bits the search takes in: the number is not below the first word of the row where it
stops, and its rank there leads to a symbol. -/
def Ranked (symbols : Array Nat) (left word : Nat) (rows : List Row) : Prop :=
  match rows.head?.filter (word < ·.next) with
  | some row => row.first ≤ word ∧ row.shorter + (word - row.first) < symbols.size
  | none =>
    match left with
    | 0 => True
    | left + 1 => ∀ bit < 2, Ranked symbols left (2 * word + bit) rows.tail

/-- The rows have their place in the search, and the symbols belong to an alphabet. -/
structure InRange (alphabet : Nat) (table : Table) : Prop where
  shortest_pos : 1 ≤ table.shortest
  longest_le : table.shortest + table.rows.length ≤ Format.maxCodeLength + 1
  size_symbols_le : table.symbols.size ≤ alphabet
  symbols_lt : ∀ symbol ∈ table.symbols, symbol < alphabet
  ranked : ∀ word < 2 ^ table.shortest,
    Ranked table.symbols (Format.maxSearch - table.shortest) word table.rows

/-! ## Ranks -/

/-- A search that leads to symbols fails only where its bits run out. -/
theorem Ranked.blames (h : Ranked symbols left word rows) :
    Blames (· = .stream (.invalidCode .unassigned)) (search symbols left word rows) := by
  induction left generalizing word rows with
  | zero =>
    unfold Ranked at h
    unfold search
    cases hfound : rows.head?.filter (word < ·.next) with
    | some row =>
      simp only [hfound] at h
      exact Row.blames_symbol h.2
    | none => exact blames_fail rfl
  | succ left ih =>
    unfold Ranked at h
    unfold search
    cases hfound : rows.head?.filter (word < ·.next) with
    | some row =>
      simp only [hfound] at h
      exact Row.blames_symbol h.2
    | none =>
      simp only [hfound] at h
      refine (blames_number 1).bind fun r bit next hbit => ih ?_
      obtain ⟨-, -, -, hlt⟩ := tells_number 1 r bit next hbit
      exact h bit hlt

theorem ranked_nil : Ranked symbols left word [] := by
  induction left generalizing word with
  | zero => trivial
  | succ left ih => exact fun bit _ => ih

theorem ranked_rowsFrom {shortest total count : Nat}
    (hsymbols : symbols = ((List.range' shortest total).flatMap (symbolsOfLength lengths)).toArray)
    (hshortest : ∀ l ∈ lengths, shortest ≤ l) (hge : shortest ≤ length)
    (hcount : length + count = shortest + total) (hfirst : firstWord lengths length ≤ word) :
    Ranked symbols left word (rowsFrom lengths count length (firstWord lengths length)
      (shorterCount lengths length)) := by
  induction count generalizing left word length with
  | zero => exact ranked_nil
  | succ count ih =>
    rw [rowsFrom_succ]
    unfold Ranked
    rw [List.head?_cons]
    by_cases hlt : word < endWord lengths length
    · rw [Option.filter_some_pos (by simpa using hlt)]
      have hrank : word - firstWord lengths length < lengths.count length := by
        unfold endWord at hlt
        omega
      have hget := getElem?_flatMap_symbolsOfLength hge (show length < shortest + total by omega)
        hrank
      rw [shorterCount_eq_zero hshortest, Nat.sub_zero, ← List.getElem?_toArray, ← hsymbols,
        List.getElem?_eq_getElem (by rwa [length_symbolsOfLength])] at hget
      exact ⟨hfirst, (Array.getElem?_eq_some_iff.1 hget).1⟩
    · rw [Option.filter_some_neg (by simpa using hlt)]
      cases left with
      | zero => trivial
      | succ left =>
        have hrow := firstWord_succ lengths length
        exact fun bit _ => ih (by omega) (by omega) (by omega)

/-! ## Tables -/

theorem length_flatMap_symbolsOfLength (lengths : List Nat) (first count : Nat) :
    ((List.range' first count).flatMap (symbolsOfLength lengths)).length +
      shorterCount lengths first = shorterCount lengths (first + count) := by
  induction count generalizing first with
  | zero => simp
  | succ count ih =>
    have hrest := ih (first + 1)
    rw [shorterCount_succ] at hrest
    rw [List.range'_succ, List.flatMap_cons, List.length_append, length_symbolsOfLength,
      show first + (count + 1) = first + 1 + count by omega, ← hrest]
    omega

theorem lt_of_mem_symbolsOfLength {symbol : Nat} (h : symbol ∈ symbolsOfLength lengths length) :
    symbol < lengths.length := by
  obtain ⟨⟨l, other⟩, hmem, heq⟩ := List.mem_filterMap.1 h
  simp only at heq
  split at heq
  · cases heq
    exact List.snd_lt_of_mem_zipIdx hmem
  · cases heq

theorem length_rowsFrom (lengths : List Nat) (count length first shorter : Nat) :
    (rowsFrom lengths count length first shorter).length = count := by
  induction count generalizing length first shorter with
  | zero => rfl
  | succ count ih => rw [rowsFrom, List.length_cons, ih]

/-- A table of code lengths within the limits keeps to its range, whether or not there are enough
words of these lengths. -/
theorem inRange_ofLengths (hne : lengths ≠ [])
    (hbounds : ∀ l ∈ lengths, 1 ≤ l ∧ l ≤ Format.maxCodeLength) :
    (ofLengths lengths).InRange lengths.length := by
  have hleast : ∀ l ∈ lengths, lengths.min?.getD 1 ≤ l := fun l hl => List.min?_getD_le_of_mem hl
  obtain ⟨least, hmin⟩ := Option.isSome_iff_exists.1 (List.isSome_min?_of_ne_nil hne)
  obtain ⟨longest, hmax⟩ := Option.isSome_iff_exists.1 (List.isSome_max?_of_ne_nil hne)
  have hpos := (hbounds least (List.min?_mem hmin)).1
  have hlong := (hbounds longest (List.max?_mem hmax)).2
  have hlast : least ≤ Format.maxCodeLength := (hbounds least (List.min?_mem hmin)).2
  have hfirst := firstWord_eq_zero hleast
  have hshorter := shorterCount_eq_zero hleast
  unfold ofLengths
  rw [hmin, Option.getD_some] at hleast hfirst hshorter ⊢
  rw [hmax, Option.getD_some]
  refine ⟨hpos, ?_, ?_, ?_, fun word _ => ?_⟩
  · show least + List.length _ ≤ _
    rw [length_rowsFrom]
    omega
  · have hlength := length_flatMap_symbolsOfLength lengths least (longest + 1 - least)
    rw [hshorter, Nat.add_zero] at hlength
    rw [List.size_toArray, hlength]
    exact List.countP_le_length
  · intro symbol hsymbol
    rw [List.mem_toArray] at hsymbol
    obtain ⟨length, -, hmem⟩ := List.mem_flatMap.1 hsymbol
    exact lt_of_mem_symbolsOfLength hmem
  · have hranked : Ranked
        ((List.range' least (longest + 1 - least)).flatMap (symbolsOfLength lengths)).toArray
        (Format.maxSearch - least) word (rowsFrom lengths (longest + 1 - least) least
          (firstWord lengths least) (shorterCount lengths least)) :=
      ranked_rowsFrom rfl hleast (Nat.le_refl least) rfl (hfirst ▸ Nat.zero_le word)
    rwa [hfirst, hshorter] at hranked

theorem not_begins_of_decode {r next : BitReader} {fault : Fault} {symbol : Nat}
    {bits : List Bool} (h : (ofLengths lengths).decode r = .error fault next)
    (hcode : codeWord? lengths symbol = some bits) (hlength : bits.length ≤ Format.maxSearch) :
    ¬ bits <+: r.bits := by
  rintro ⟨rest, hbits⟩
  obtain ⟨other, hother, -⟩ := reads_decode hcode hlength r rest hbits.symm
  rw [h] at hother
  cases hother

theorem InRange.blames {alphabet : Nat} {table : Table} (h : table.InRange alphabet) :
    Blames (· = .stream (.invalidCode .unassigned)) table.decode := by
  refine (blames_number _).bind fun r word next hword => (h.ranked word ?_).blames
  obtain ⟨-, -, -, hlt⟩ := tells_number _ r word next hword
  exact hlt

end Table

/-! ## Decoders -/

namespace Decoder

/-- No code word in the table of the next symbol begins the bits. -/
def Rejects (d : Decoder) (bits : List Bool) : Prop :=
  ∃ table lengths, d.selectors[d.position / Format.groupSize]? = some table ∧
    d.tables[table]? = some (Table.ofLengths lengths) ∧
      ∀ symbol word, codeWord? lengths symbol = some word → ¬ word <+: bits

theorem Rejects.take {d : Decoder} {bits : List Bool} (h : d.Rejects bits) (n : Nat) :
    d.Rejects (bits.take n) := by
  obtain ⟨table, lengths, hselector, htable, hwords⟩ := h
  exact ⟨table, lengths, hselector, htable, fun symbol word hword hbegins =>
    hwords symbol word hword (hbegins.trans (List.take_prefix n bits))⟩

/-- Each selector names a table, and the tables keep to the range of an alphabet. -/
structure InRange (alphabet : Nat) (d : Decoder) : Prop where
  tables_le : d.tables.size ≤ Format.maxTables
  selectors_lt : ∀ selector ∈ d.selectors, selector < d.tables.size
  tables : ∀ table ∈ d.tables, table.InRange alphabet

variable {d : Decoder} {r next : BitReader} {fault : Fault}

theorem InRange.spends_next {alphabet : Nat} (h : d.InRange alphabet) : Spends 1 d.next := by
  unfold Decoder.next
  split
  · exact spends_fail 1 _
  split
  · exact spends_fail 1 _
  · rename_i table htable
    have hpos := (h.tables table (Array.mem_of_getElem? htable)).shortest_pos
    exact ((Table.spends_decode table).weaken hpos).first fun _ => spends_pure _

/-- The next symbol fails if there is no selector for it, or if no code word begins the bits. -/
theorem fault_of_next {alphabet : Nat} {known : List (List Nat)} (h : d.InRange alphabet)
    (htables : d.tables = (known.map Table.ofLengths).toArray)
    (hknown : ∀ lengths ∈ known, ∀ l ∈ lengths, l ≤ Format.maxCodeLength)
    (hnext : d.next r = .error fault next) :
    fault = .defect .shortRead ∨ fault = .stream .selectorsExhausted ∨
      fault = .stream (.invalidCode .unassigned) ∧ d.Rejects r.bits := by
  unfold Decoder.next at hnext
  cases hselector : d.selectors[d.position / Format.groupSize]? with
  | none =>
    rw [hselector] at hnext
    cases hnext
    exact .inr (.inl rfl)
  | some selector =>
    have hlt := h.selectors_lt selector (Array.mem_of_getElem? hselector)
    have htable := Array.getElem?_eq_getElem hlt
    rw [hselector] at hnext
    simp only [htable] at hnext
    have hknows : known[selector]?.map Table.ofLengths = some d.tables[selector] := by
      rw [← htable, htables, List.getElem?_toArray, List.getElem?_map]
    obtain ⟨lengths, hlengths, heq⟩ := Option.map_eq_some_iff.1 hknows
    change EStateM.bind _ _ r = _ at hnext
    rw [EStateM.bind] at hnext
    split at hnext
    · cases hnext
    rename_i hdecode
    cases hnext
    refine ((h.tables _ (Array.getElem_mem hlt)).blames _ _ _ hdecode).imp_right fun hfault => ?_
    refine .inr ⟨hfault, selector, lengths, hselector, by rw [htable, heq], ?_⟩
    intro symbol word hword
    rw [← heq] at hdecode
    have hlength := List.mem_of_getElem? (length_of_codeWord? hword)
    have hle := hknown lengths (List.mem_of_getElem? hlengths) _ hlength
    exact Table.not_begins_of_decode hdecode hword (Nat.le_trans hle (by decide))

end Decoder

end Bunzip.Huffman
