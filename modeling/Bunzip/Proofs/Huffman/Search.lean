import Bunzip.Huffman.Canonical
import Bunzip.Huffman.Table
import Bunzip.Proofs.Scan.Word

/-!
# Searching a code word

A table built from code lengths reads each canonical code word as its symbol
(`Table.reads_decode`). As numbers the words of a length lie above everything that shorter words
begin (`Canonical.endWord_mul_le`), so the search does not stop before the word is complete; and the
place of a word in its row is the rank of its symbol among those of the same length.
-/

namespace Bunzip.Huffman

open Scan

namespace Canonical

variable {lengths : List Nat} {length symbol : Nat} {word : List Bool}

/-- One more than the last code word of a length, as a number. -/
def endWord (lengths : List Nat) (length : Nat) : Nat :=
  firstWord lengths length + lengths.count length

/-- The words of the next length begin at the end of this row, with a bit behind it. -/
theorem firstWord_succ (lengths : List Nat) (length : Nat) :
    firstWord lengths (length + 1) = 2 * endWord lengths length := rfl

theorem firstWord_le_endWord (lengths : List Nat) (length : Nat) :
    firstWord lengths length ≤ endWord lengths length :=
  Nat.le_add_right _ _

/-- What begins with a word of a length lies below the words of greater lengths. -/
theorem endWord_mul_le (lengths : List Nat) {short long : Nat} (h : short < long) :
    endWord lengths short * 2 ^ (long - short) ≤ firstWord lengths long := by
  induction long with
  | zero => omega
  | succ long ih =>
    rcases Nat.lt_succ_iff_lt_or_eq.1 h with hlt | rfl
    · have hle := Nat.le_trans (ih hlt) (firstWord_le_endWord lengths long)
      rw [firstWord_succ, show long + 1 - short = long - short + 1 by omega, Nat.pow_succ,
        ← Nat.mul_assoc, Nat.mul_comm _ 2]
      exact Nat.mul_le_mul_left 2 hle
    · have heq : endWord lengths short * 2 ^ (short + 1 - short) = firstWord lengths (short + 1) := by
        rw [firstWord_succ, Nat.add_sub_cancel_left, Nat.pow_one, Nat.mul_comm]
      exact Nat.le_of_eq heq

theorem firstWord_eq_zero (h : ∀ l ∈ lengths, length ≤ l) : firstWord lengths length = 0 := by
  induction length with
  | zero => rfl
  | succ length ih =>
    have hcount : lengths.count length = 0 := List.count_eq_zero.2 fun hmem => by
      have := h _ hmem
      omega
    rw [firstWord, hcount, ih fun l hl => Nat.le_of_succ_le (h l hl)]

theorem value_of_codeWord? (h : codeWord? lengths symbol = some word) :
    Bits.value word =
      firstWord lengths word.length + (lengths.take symbol).count word.length := by
  have hlength := length_of_codeWord? h
  unfold codeWord? at h
  simp only [hlength] at h
  split at h
  · rename_i hlt
    have hword : Bits.ofNat word.length _ = word := Option.some.inj h
    have hvalue := Bits.value_ofNat word.length
      (firstWord lengths word.length + (lengths.take symbol).count word.length)
    rwa [hword, Nat.mod_eq_of_lt hlt] at hvalue
  · cases h

theorem rank_lt_count (h : lengths[symbol]? = some length) :
    (lengths.take symbol).count length < lengths.count length := by
  obtain ⟨hlt, rfl⟩ := List.getElem?_eq_some_iff.1 h
  have hsplit : lengths.count lengths[symbol] = (lengths.take symbol).count lengths[symbol] +
      (lengths.drop symbol).count lengths[symbol] := by
    rw [← List.count_append, List.take_append_drop]
  rw [hsplit, List.drop_eq_getElem_cons hlt, List.count_cons_self]
  omega

end Canonical

namespace Table

open Canonical

variable {lengths : List Nat} {length symbol : Nat} {word : List Bool}

/-! ## The symbols in order -/

theorem length_symbolsOfLength (lengths : List Nat) (length : Nat) :
    (symbolsOfLength lengths length).length = lengths.count length := by
  have h (start : Nat) : ((lengths.zipIdx start).filterMap fun entry =>
      if entry.1 = length then some entry.2 else none).length = lengths.count length := by
    induction lengths generalizing start with
    | nil => rfl
    | cons l lengths ih =>
      rw [List.zipIdx_cons, List.filterMap_cons, List.count_cons]
      by_cases hl : l = length <;> simp [hl, ih]
  exact h 0

theorem getElem?_symbolsOfLength (h : lengths[symbol]? = some length) :
    (symbolsOfLength lengths length)[(lengths.take symbol).count length]? = some symbol := by
  have hfrom (start : Nat) : ((lengths.zipIdx start).filterMap fun entry =>
      if entry.1 = length then some entry.2 else none)[(lengths.take symbol).count length]? =
        some (start + symbol) := by
    induction lengths generalizing start symbol with
    | nil => cases h
    | cons l lengths ih =>
      rw [List.zipIdx_cons, List.filterMap_cons]
      cases symbol with
      | zero =>
        obtain rfl : l = length := by simpa using h
        simp
      | succ symbol =>
        have hrest : lengths[symbol]? = some length := by simpa using h
        have := ih hrest (start + 1)
        by_cases hl : l = length <;> simp [hl] at this ⊢ <;> rw [this] <;> congr 1 <;> omega
  have hplace := hfrom 0
  rw [Nat.zero_add] at hplace
  exact hplace

def shorterCount (lengths : List Nat) (length : Nat) : Nat :=
  lengths.countP (· < length)

theorem shorterCount_succ (lengths : List Nat) (length : Nat) :
    shorterCount lengths (length + 1) = shorterCount lengths length + lengths.count length := by
  induction lengths with
  | nil => rfl
  | cons l lengths ih =>
    simp only [shorterCount, List.countP_cons, List.count_cons, decide_eq_true_eq, beq_iff_eq]
      at ih ⊢
    split <;> split <;> split <;> omega

theorem shorterCount_mono (lengths : List Nat) {short long : Nat} (h : short ≤ long) :
    shorterCount lengths short ≤ shorterCount lengths long := by
  induction long with
  | zero => exact Nat.le_of_eq (by rw [Nat.le_zero.1 h])
  | succ long ih =>
    rcases Nat.le_succ_iff.1 h with hle | rfl
    · rw [shorterCount_succ]
      exact Nat.le_add_right_of_le (ih hle)
    · exact Nat.le_refl _

/-- The symbols of a length stand behind those of the shorter lengths from `first` on. -/
theorem getElem?_flatMap_symbolsOfLength {first count : Nat} (hfirst : first ≤ length)
    (hlength : length < first + count) {rank : Nat} (hrank : rank < lengths.count length) :
    ((List.range' first count).flatMap (symbolsOfLength lengths))[
      shorterCount lengths length - shorterCount lengths first + rank]? =
        (symbolsOfLength lengths length)[rank]? := by
  induction count generalizing first with
  | zero => omega
  | succ count ih =>
    rw [List.range'_succ, List.flatMap_cons]
    rcases Nat.lt_or_eq_of_le hfirst with hlt | rfl
    · have hmono := shorterCount_mono lengths (show first + 1 ≤ length from hlt)
      have hsucc := shorterCount_succ lengths first
      rw [List.getElem?_append_right (by rw [length_symbolsOfLength]; omega),
        length_symbolsOfLength, ← ih (show first + 1 ≤ length from hlt) (by omega)]
      congr 1
      omega
    · rw [Nat.sub_self, Nat.zero_add,
        List.getElem?_append_left (by rw [length_symbolsOfLength]; exact hrank)]

/-! ## The search -/

theorem rowsFrom_succ (lengths : List Nat) (count length : Nat) :
    rowsFrom lengths (count + 1) length (firstWord lengths length) (shorterCount lengths length) =
      ⟨firstWord lengths length, endWord lengths length, shorterCount lengths length⟩ ::
        rowsFrom lengths count (length + 1) (firstWord lengths (length + 1))
          (shorterCount lengths (length + 1)) := by
  rw [shorterCount_succ]
  rfl

/-- The front of a code word lies above the row of its length. -/
theorem endWord_le_value_take (h : codeWord? lengths symbol = some word)
    (hlt : length < word.length) : endWord lengths length ≤ Bits.value (word.take length) := by
  have hsplit := Bits.value_append (word.take length) (word.drop length)
  rw [List.take_append_drop, List.length_drop] at hsplit
  have hback := Bits.value_lt (word.drop length)
  rw [List.length_drop] at hback
  have hend := endWord_mul_le lengths hlt
  have hvalue := value_of_codeWord? h
  refine Nat.le_of_lt_succ (Nat.lt_of_mul_lt_mul_right (a := 2 ^ (word.length - length)) ?_)
  calc endWord lengths length * 2 ^ (word.length - length)
      ≤ Bits.value word := by omega
    _ < (Bits.value (word.take length) + 1) * 2 ^ (word.length - length) := by
      rw [Nat.add_mul]
      omega

theorem search_of_lt {symbols : Array Nat} {left word : Nat} {row : Row} {rows : List Row}
    (h : word < row.next) : search symbols left word (row :: rows) = row.symbol symbols word := by
  have hfilter : (some row).filter (fun row => decide (word < row.next)) = some row :=
    Option.filter_some_pos (by simpa using h)
  unfold search
  rw [List.head?_cons, hfilter]

theorem search_of_le {symbols : Array Nat} {left word : Nat} {row : Row} {rows : List Row}
    (h : row.next ≤ word) : search symbols (left + 1) word (row :: rows) =
      Scan.number 1 >>= fun bit => search symbols left (2 * word + bit) rows := by
  have hfilter : (some row).filter (fun row => decide (word < row.next)) = none :=
    Option.filter_some_neg (by simpa using h)
  rw [search, List.head?_cons, hfilter]
  rfl

theorem value_take_succ (hlt : length < word.length) :
    Bits.value (word.take (length + 1)) =
      2 * Bits.value (word.take length) + Bits.value [word[length]] := by
  rw [List.take_add_one, List.getElem?_eq_getElem hlt, Bits.value_append, Nat.mul_comm]
  rfl

theorem reads_search_complete {symbols : Array Nat} {left : Nat} {rows : List Row}
    (h : codeWord? lengths symbol = some word)
    (hsymbol : symbols[shorterCount lengths word.length +
      (lengths.take symbol).count word.length]? = some symbol) :
    Reads (search symbols left (Bits.value word)
      (⟨firstWord lengths word.length, endWord lengths word.length,
        shorterCount lengths word.length⟩ :: rows)) [] symbol := by
  have hvalue := value_of_codeWord? h
  have hrank := rank_lt_count (length_of_codeWord? h)
  have hlt : Bits.value word < endWord lengths word.length := by
    unfold endWord
    omega
  have hplace : Bits.value word - firstWord lengths word.length =
      (lengths.take symbol).count word.length := by omega
  rw [search_of_lt hlt, Row.symbol]
  simp only [hplace, hsymbol]
  exact reads_pure symbol

/-- The search goes on with the bits of a code word until it is complete. -/
theorem reads_search {symbols : Array Nat} {count left : Nat}
    (h : codeWord? lengths symbol = some word)
    (hsymbol : symbols[shorterCount lengths word.length +
      (lengths.take symbol).count word.length]? = some symbol)
    (hlength : length ≤ word.length) (hcount : word.length < length + count)
    (hleft : word.length - length ≤ left) :
    Reads (search symbols left (Bits.value (word.take length))
      (rowsFrom lengths count length (firstWord lengths length) (shorterCount lengths length)))
      (word.drop length) symbol := by
  induction left generalizing length count with
  | zero =>
    obtain rfl : length = word.length := by omega
    obtain ⟨count, rfl⟩ : ∃ n, count = n + 1 := ⟨count - 1, by omega⟩
    rw [rowsFrom_succ, List.take_length, List.drop_length]
    exact reads_search_complete h hsymbol
  | succ left ih =>
    obtain ⟨count, rfl⟩ : ∃ n, count = n + 1 := ⟨count - 1, by omega⟩
    rcases Nat.lt_or_eq_of_le hlength with hlt | rfl
    · rw [rowsFrom_succ, search_of_le (endWord_le_value_take h hlt),
        List.drop_eq_getElem_cons hlt, ← List.singleton_append]
      refine (reads_number [word[length]]).bind ?_
      rw [← value_take_succ hlt]
      exact ih hlt (by omega) (by omega)
    · rw [rowsFrom_succ, List.take_length, List.drop_length]
      exact reads_search_complete h hsymbol

theorem shorterCount_eq_zero (h : ∀ l ∈ lengths, length ≤ l) : shorterCount lengths length = 0 :=
  List.countP_eq_zero.2 fun l hl => by simpa using h l hl

/-- A table reads each code word of at most the longest search as its symbol. -/
theorem reads_decode (h : codeWord? lengths symbol = some word)
    (hlength : word.length ≤ Format.maxSearch) : Reads (ofLengths lengths).decode word symbol := by
  have hget := length_of_codeWord? h
  have hmem : word.length ∈ lengths := List.mem_of_getElem? hget
  have hlongest : word.length ≤ lengths.max?.getD 0 := List.le_max?_getD_of_mem hmem
  have hleast : ∀ l ∈ lengths, lengths.min?.getD 1 ≤ l := fun l hl => List.min?_getD_le_of_mem hl
  unfold decode ofLengths
  generalize lengths.min?.getD 1 = shortest at hleast ⊢
  have hshortest := hleast _ hmem
  have htake : (word.take shortest).length = shortest := by
    rw [List.length_take]
    omega
  have hread := reads_number (word.take shortest)
  rw [htake] at hread
  have hfirst := firstWord_eq_zero hleast
  have hshorter := shorterCount_eq_zero hleast
  have hplace := getElem?_flatMap_symbolsOfLength hshortest
    (show word.length < shortest + (lengths.max?.getD 0 + 1 - shortest) by omega)
    (rank_lt_count hget)
  rw [getElem?_symbolsOfLength hget, hshorter, Nat.sub_zero] at hplace
  have hsearch := reads_search h (List.getElem?_toArray.trans hplace) hshortest
    (show word.length < shortest + (lengths.max?.getD 0 + 1 - shortest) by omega)
    (show word.length - shortest ≤ Format.maxSearch - shortest by omega)
  rw [hfirst, hshorter] at hsearch
  rw [← List.take_append_drop shortest word]
  exact hread.bind hsearch

end Table

end Bunzip.Huffman
