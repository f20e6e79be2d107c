import Bunzip.Huffman.Limits
import Bunzip.Proofs.Huffman.Lookahead
import Bunzip.Proofs.Huffman.Ranges

/-!
# Decoding by limits

The cells of a `LimitTable` show the numbers that a `Table` keeps in its rows: after the counting
the number of symbols of each length (`countLengths_eq`), after the adding up the number of symbols
with shorter words (`addUp_eq`), and in the end, from the shortest length on, bases and limits
(`layOut_eq`). So it decodes as the `Table` does (`decode_ofLengths?`), and no step of the setup
leaves the cells.
-/

namespace Bunzip.Huffman

open Scan Canonical Table

variable {lengths : List Nat} {length shortest : Nat}

/-! ## Cells -/

/-- The cells show these numbers. -/
def Shows {n : Nat} (cells : Vector Int32 n) (f : Nat → Int) : Prop :=
  ∀ i < n, cells[i]? = some (Int32.ofInt (f i))

theorem Shows.congr {n : Nat} {cells : Vector Int32 n} {f g : Nat → Int} (h : Shows cells f)
    (heq : ∀ i < n, f i = g i) : Shows cells g := fun i hi => by rw [h i hi, heq i hi]

theorem shows_replicate (n : Nat) {value : Int32} {number : Int}
    (h : value = Int32.ofInt number) : Shows (Vector.replicate n value) fun _ => number := by
  intro i hi
  rw [Vector.getElem?_eq_getElem hi, Vector.getElem_replicate, h]

theorem write?_eq_some {α : Type} {n i : Nat} (cells : Vector α n) (hi : i < n) (value : α) :
    ∃ after, write? cells i value = some after ∧
      ∀ j, after[j]? = if i = j then some value else cells[j]? :=
  ⟨cells.set i value, by rw [write?, dif_pos hi], fun _ => Vector.getElem?_set hi⟩

theorem Shows.write {n i : Nat} {cells : Vector Int32 n} {f g : Nat → Int} (h : Shows cells f)
    (hi : i < n) (hg : ∀ j < n, j ≠ i → g j = f j) :
    ∃ after, write? cells i (Int32.ofInt (g i)) = some after ∧ Shows after g := by
  obtain ⟨after, hafter, hcells⟩ := write?_eq_some cells hi (Int32.ofInt (g i))
  refine ⟨after, hafter, fun j hj => ?_⟩
  rw [hcells]
  by_cases hij : i = j
  · rw [if_pos hij, hij]
  · rw [if_neg hij, h j hj, hg j hj (Ne.symm hij)]

theorem Shows.get_eq {n i : Nat} {cells : Vector Int32 n} {f : Nat → Int}
    (h : Shows cells f) (hi : i < n) :
    cells.get ⟨i, hi⟩ = Int32.ofInt (f i) := by
  have hcell := h i hi
  rw [Vector.getElem?_eq_getElem hi] at hcell
  exact Option.some.inj hcell

theorem ofInt_one : Int32.ofInt 1 = 1 := rfl

theorem lt_succ_iff_of_ne {i j : Nat} (hj : j ≠ i) : j < i + 1 ↔ j < i := by omega

namespace LimitTable

variable {bases : Bases} {limits : Limits} {f : Nat → Int}

/-! ## Counting -/

/-- Each length adds to the cell behind it. -/
theorem countLengths_eq (hlengths : ∀ l ∈ lengths, l ≤ Format.maxSearch) (h : Shows bases f) :
    ∃ after, countLengths bases lengths = some after ∧
      Shows after fun i => f i + (if i = 0 then 0 else lengths.count (i - 1) : Nat) := by
  induction lengths generalizing bases f with
  | nil =>
    refine ⟨bases, rfl, h.congr fun i _ => ?_⟩
    split <;> simp
  | cons l lengths ih =>
    have hl := hlengths l List.mem_cons_self
    have hcell : l + 1 < Format.maxSearch + 2 := Nat.lt_succ_of_le (Nat.succ_le_succ hl)
    obtain ⟨next, hnext, hshows⟩ := h.write (g := fun i => f i + if i = l + 1 then 1 else 0) hcell
      fun j _ hj => by rw [if_neg hj, Int.add_zero]
    rw [if_pos rfl, Int32.ofInt_add, ofInt_one] at hnext
    obtain ⟨after, hafter, hafterShows⟩ :=
      ih (fun other hother => hlengths other (List.mem_cons_of_mem _ hother)) hshows
    refine ⟨after, ?_, hafterShows.congr fun i _ => ?_⟩
    · simp only [countLengths, h _ hcell, Option.bind_eq_bind, Option.bind_some, hnext, hafter]
    · rw [List.count_cons]
      cases i with
      | zero => simp
      | succ i =>
        by_cases hi : i = l
        · simp [hi]
          omega
        · simp [hi, Ne.symm hi]

/-- The sums in the cells before cell `i`, and the counts in the others. -/
def sumsTo (lengths : List Nat) (i j : Nat) : Int :=
  if j < i then shorterCount lengths j else lengths.count (j - 1)

theorem sumsTo_one (lengths : List Nat) (i : Nat) :
    sumsTo lengths 1 i = 0 + (if i = 0 then 0 else lengths.count (i - 1) : Nat) := by
  unfold sumsTo
  cases i with
  | zero =>
    rw [if_pos rfl, if_pos Nat.one_pos, shorterCount_eq_zero fun _ _ => Nat.zero_le _]
    rfl
  | succ i => rw [if_neg (Nat.succ_ne_zero i), if_neg (by omega), Int.zero_add]

/-- Added up, the cells show how many symbols have shorter code words. -/
theorem addUp_eq {left i : Nat} (hi : 1 ≤ i) (hleft : i + left = Format.maxSearch + 2)
    (h : Shows bases (sumsTo lengths i)) :
    ∃ after, addUp bases left i = some after ∧
      Shows after fun j => (shorterCount lengths j : Nat) := by
  induction left generalizing bases i with
  | zero =>
    exact ⟨bases, rfl, h.congr fun j hj => if_pos (show j < i by omega)⟩
  | succ left ih =>
    have hcell : i < Format.maxSearch + 2 := by omega
    have hhere := h i hcell
    have hbefore := h (i - 1) (by omega)
    rw [sumsTo, if_neg (Nat.lt_irrefl i)] at hhere
    rw [sumsTo, if_pos (show i - 1 < i by omega)] at hbefore
    have hsum := shorterCount_succ lengths (i - 1)
    rw [Nat.sub_add_cancel hi, Nat.add_comm] at hsum
    obtain ⟨next, hnext, hshows⟩ := h.write (g := sumsTo lengths (i + 1)) hcell fun j _ hj => by
      simp only [sumsTo, lt_succ_iff_of_ne hj]
    rw [sumsTo, if_pos (Nat.lt_succ_self i), hsum, Int.natCast_add, Int32.ofInt_add] at hnext
    obtain ⟨after, hafter, hafterShows⟩ := ih (Nat.le_succ_of_le hi) (by omega) hshows
    refine ⟨after, ?_, hafterShows⟩
    simp only [addUp, hhere, hbefore, Option.bind_eq_bind, Option.bind_some, hnext, hafter]

/-! ## Laying out -/

theorem toBitVec_shiftLeft_one (x : Int32) : (x <<< 1).toBitVec = x.toBitVec <<< 1 := by
  have hone : (1 : Int32).toBitVec.smod 32 = 1#32 := by decide
  rw [Int32.toBitVec_shiftLeft, hone]
  rfl

theorem shiftLeft_one (x : Int32) : x <<< 1 = x + x := by
  apply Int32.toBitVec_inj.1
  rw [toBitVec_shiftLeft_one, Int32.toBitVec_add]
  apply BitVec.eq_of_toNat_eq
  simp only [BitVec.toNat_shiftLeft, BitVec.toNat_add, Nat.shiftLeft_eq, Nat.pow_one, Nat.mul_two]

theorem ofInt_two_mul (n : Int) : Int32.ofInt n <<< 1 = Int32.ofInt (2 * n) := by
  rw [shiftLeft_one, Int.two_mul, Int32.ofInt_add]

/-- The bases below a length, and numbers of symbols from there on. -/
def basesTo (lengths : List Nat) (shortest length j : Nat) : Int :=
  if shortest ≤ j ∧ j < length then (firstWord lengths j : Int) - shorterCount lengths j
  else shorterCount lengths j

/-- The limits below a length. -/
def limitsTo (lengths : List Nat) (shortest length j : Nat) : Int :=
  if shortest ≤ j ∧ j < length then (endWord lengths j : Int) - 1 else -1

/-- Laid out, the cells show the bases and limits of the lengths from the shortest on. -/
theorem layOut_eq {count : Nat} (hge : shortest ≤ length)
    (hle : length + count ≤ Format.maxSearch + 1)
    (hbases : Shows bases (basesTo lengths shortest length))
    (hlimits : Shows limits (limitsTo lengths shortest length)) :
    ∃ after final,
      layOut bases limits count length (Int32.ofInt (firstWord lengths length)) =
        some (after, final) ∧
      Shows after (basesTo lengths shortest (length + count)) ∧
      Shows final (limitsTo lengths shortest (length + count)) := by
  induction count generalizing length bases limits with
  | zero => exact ⟨bases, limits, rfl, hbases, hlimits⟩
  | succ count ih =>
    have hbehind := hbases (length + 1) (by omega)
    have hhere := hbases length (by omega)
    rw [basesTo, if_neg (by omega)] at hbehind hhere
    have hsize := shorterCount_succ lengths length
    have hnext : Int32.ofInt (firstWord lengths length) +
        (Int32.ofInt (shorterCount lengths (length + 1)) -
          Int32.ofInt (shorterCount lengths length)) = Int32.ofInt (endWord lengths length) := by
      rw [← Int32.ofInt_sub, ← Int32.ofInt_add]
      congr 1
      unfold endWord
      omega
    obtain ⟨bases', hbases', hshows⟩ := hbases.write
      (g := basesTo lengths shortest (length + 1)) (show length < Format.maxSearch + 2 by omega)
      fun j _ hj => by simp only [basesTo, lt_succ_iff_of_ne hj]
    obtain ⟨limits', hlimits', hlimitsShow⟩ := hlimits.write
      (g := limitsTo lengths shortest (length + 1)) (show length < Format.maxSearch + 1 by omega)
      fun j _ hj => by simp only [limitsTo, lt_succ_iff_of_ne hj]
    rw [basesTo, if_pos (by omega), Int32.ofInt_sub] at hbases'
    rw [limitsTo, if_pos (by omega), Int32.ofInt_sub, ofInt_one] at hlimits'
    have hdouble : Int32.ofInt (endWord lengths length) <<< 1 =
        Int32.ofInt (firstWord lengths (length + 1)) := by
      rw [ofInt_two_mul, firstWord_succ, Int.natCast_mul]
      rfl
    obtain ⟨after, final, hafter, hresult⟩ :=
      ih (Nat.le_succ_of_le hge) (by omega) hshows hlimitsShow
    rw [Nat.succ_add_eq_add_succ] at hresult
    refine ⟨after, final, ?_, hresult⟩
    simp only [layOut, hbehind, hhere, Option.bind_eq_bind, Option.bind_some, hnext, hbases',
      hlimits', hdouble, hafter]

/-! ## Placing -/

/-- The first cells have these symbols. -/
def Holds (symbols : Vector UInt16 Format.maxAlphabet) (given : List Nat) : Prop :=
  ∀ (k symbol : Nat), given[k]? = some symbol → symbols[k]? = some (UInt16.ofNat symbol)

variable {symbols : Vector UInt16 Format.maxAlphabet} {given : List Nat}

theorem Holds.write (h : Holds symbols given) (hroom : given.length < Format.maxAlphabet)
    (symbol : Nat) : ∃ after, write? symbols given.length (UInt16.ofNat symbol) = some after ∧
      Holds after (given ++ [symbol]) := by
  obtain ⟨after, hafter, hcells⟩ := write?_eq_some symbols hroom (UInt16.ofNat symbol)
  refine ⟨after, hafter, fun k other hother => ?_⟩
  rw [hcells]
  by_cases hk : given.length = k
  · subst hk
    rw [List.getElem?_concat_length] at hother
    cases hother
    exact if_pos rfl
  · rw [if_neg hk]
    have hlt := (List.getElem?_eq_some_iff.1 hother).1
    rw [List.length_append, List.length_singleton] at hlt
    rw [List.getElem?_append_left (by omega)] at hother
    exact h k other hother

theorem placeLength_eq (symbol : Nat) (h : Holds symbols given)
    (hroom : given.length + lengths.count length ≤ Format.maxAlphabet) :
    ∃ after found,
      placeLength symbols length lengths symbol given.length =
        some (after, (given ++ found).length) ∧
      found = (lengths.zipIdx symbol).filterMap (fun (l, symbol) =>
        if l = length then some symbol else none) ∧ Holds after (given ++ found) := by
  induction lengths generalizing symbols given symbol with
  | nil => exact ⟨symbols, [], by rw [List.append_nil]; rfl, rfl, by rwa [List.append_nil]⟩
  | cons l lengths ih =>
    rw [List.count_cons] at hroom
    rw [List.zipIdx_cons, List.filterMap_cons]
    by_cases hl : l = length
    · rw [if_pos (by simpa using hl)] at hroom
      obtain ⟨next, hnext, hholds⟩ := h.write (by omega) symbol
      have hlength : (given ++ [symbol]).length = given.length + 1 := List.length_append
      obtain ⟨after, found, hafter, hfound, hall⟩ :=
        ih (symbol + 1) hholds (by rw [hlength]; omega)
      rw [List.append_assoc, List.singleton_append] at hafter hall
      refine ⟨after, symbol :: found, ?_, by simp only [hl, if_true, hfound], hall⟩
      rw [placeLength, if_pos hl, hnext, Option.bind_eq_bind, Option.bind_some, ← hlength, hafter]
    · rw [if_neg (by simpa using hl)] at hroom
      obtain ⟨after, found, hafter, hfound, hall⟩ := ih (symbol + 1) h hroom
      refine ⟨after, found, ?_, by simp only [hl, if_false, hfound], hall⟩
      rw [placeLength, if_neg hl, hafter]

theorem placeSymbols_eq {count : Nat} (h : Holds symbols given)
    (hgiven : given.length = shorterCount lengths length)
    (hroom : lengths.length ≤ Format.maxAlphabet) :
    ∃ after, placeSymbols symbols lengths count length given.length = some after ∧
      Holds after (given ++ (List.range' length count).flatMap (symbolsOfLength lengths)) := by
  induction count generalizing symbols given length with
  | zero => exact ⟨symbols, rfl, by rwa [List.range'_zero, List.flatMap_nil, List.append_nil]⟩
  | succ count ih =>
    have hsum := shorterCount_succ lengths length
    have hle : shorterCount lengths (length + 1) ≤ lengths.length := List.countP_le_length
    have hfits : given.length + lengths.count length ≤ Format.maxAlphabet := by omega
    obtain ⟨next, found, hnext, hfound, hholds⟩ := placeLength_eq 0 h hfits
    obtain rfl : found = symbolsOfLength lengths length := hfound
    have hlength : (given ++ symbolsOfLength lengths length).length =
        shorterCount lengths (length + 1) := by
      rw [List.length_append, length_symbolsOfLength, hgiven, hsum]
    obtain ⟨after, hafter, hall⟩ := ih hholds hlength
    rw [List.append_assoc, ← List.flatMap_cons, ← List.range'_succ] at hall
    refine ⟨after, ?_, hall⟩
    simp only [placeSymbols, hnext, Option.bind_eq_bind, Option.bind_some, hafter]

/-! ## Searching -/

theorem toInt_ofNat_of_lt {word : Nat} (h : word < 2 ^ 31) : (Int32.ofNat word).toInt = word := by
  rw [← Int32.ofInt_eq_ofNat, Int32.toInt_ofInt_of_le (by omega) (by omega)]

theorem ofNat_le_ofInt_iff {word : Nat} {limit : Int} (hword : word < 2 ^ 31)
    (hge : -2 ^ 31 ≤ limit) (hlt : limit < 2 ^ 31) :
    Int32.ofNat word ≤ Int32.ofInt limit ↔ (word : Int) ≤ limit := by
  rw [Int32.le_iff_toInt_le, toInt_ofNat_of_lt hword, Int32.toInt_ofInt_of_le hge hlt]

theorem shiftLeft_or (word bit : Nat) (hword : word < 2 ^ 30) (hbit : bit < 2) :
    Int32.ofNat word <<< 1 ||| Int32.ofNat bit = Int32.ofNat (2 * word + bit) := by
  apply Int32.toBitVec_inj.1
  have hor := Nat.shiftLeft_add_eq_or_of_lt (show bit < 2 ^ 1 from hbit) word
  rw [Nat.shiftLeft_eq] at hor
  rw [Int32.toBitVec_or, toBitVec_shiftLeft_one]
  apply BitVec.eq_of_toNat_eq
  simp only [Int32.toBitVec_ofNat', BitVec.toNat_or, BitVec.toNat_shiftLeft, BitVec.toNat_ofNat,
    Nat.shiftLeft_eq]
  rw [Nat.mod_eq_of_lt (show word < 2 ^ 32 by omega), Nat.mod_eq_of_lt (show bit < 2 ^ 32 by omega),
    Nat.mod_eq_of_lt (show 2 * word + bit < 2 ^ 32 by omega)]
  show word * 2 ^ 1 % 2 ^ 32 ||| bit = 2 * word + bit
  rw [Nat.mod_eq_of_lt (show word * 2 ^ 1 < 2 ^ 32 by omega), ← hor, Nat.pow_one, Nat.mul_comm]

/-- There is room for the ends of the rows in a word of 32 bits. -/
theorem endWord_le_mul (lengths : List Nat) (length : Nat) :
    endWord lengths length ≤ shorterCount lengths (length + 1) * 2 ^ length := by
  induction length with
  | zero =>
    rw [shorterCount_succ, endWord, firstWord, Nat.pow_zero, Nat.mul_one]
    omega
  | succ length ih =>
    have hpos := Nat.two_pow_pos (length + 1)
    have hmul := Nat.le_mul_of_pos_right (lengths.count (length + 1)) hpos
    have hdouble : 2 * endWord lengths length ≤
        shorterCount lengths (length + 1) * 2 ^ (length + 1) := by
      rw [Nat.pow_succ', Nat.mul_left_comm]
      exact Nat.mul_le_mul_left 2 ih
    rw [shorterCount_succ, endWord, firstWord_succ, Nat.add_mul]
    omega

theorem endWord_lt (hroom : lengths.length ≤ Format.maxAlphabet)
    (hlength : length ≤ Format.maxCodeLength) : endWord lengths length < 2 ^ 30 := by
  have hcount : shorterCount lengths (length + 1) ≤ Format.maxAlphabet :=
    Nat.le_trans List.countP_le_length hroom
  have hpow : 2 ^ length ≤ 2 ^ 20 := Nat.pow_le_pow_right (by decide) hlength
  calc endWord lengths length
      ≤ shorterCount lengths (length + 1) * 2 ^ length := endWord_le_mul lengths length
    _ ≤ 258 * 2 ^ 20 := Nat.mul_le_mul hcount hpow
    _ < 2 ^ 30 := by decide

/-- The symbols of some lengths in the order of their code words. -/
def orderOf (lengths : List Nat) (shortest total : Nat) : List Nat :=
  (List.range' shortest total).flatMap (symbolsOfLength lengths)

/-- A table that was set up from code lengths, of which the shortest is `shortest`, and the longest
comes at most `total` later. -/
structure SetUp (lengths : List Nat) (shortest total : Nat) (t : LimitTable) : Prop where
  alphabet_le : lengths.length ≤ Format.maxAlphabet
  shortest_le : ∀ l ∈ lengths, shortest ≤ l
  longest_le : shortest + total ≤ Format.maxCodeLength + 1
  bases : Shows t.bases (basesTo lengths shortest (shortest + total))
  limits : Shows t.limits (limitsTo lengths shortest (shortest + total))
  symbols : Holds t.symbols (orderOf lengths shortest total)

variable {t : LimitTable} {total left count word : Nat}

theorem SetUp.limit_bounds (h : t.SetUp lengths shortest total) (length : Nat) :
    -1 ≤ limitsTo lengths shortest (shortest + total) length ∧
      limitsTo lengths shortest (shortest + total) length < 2 ^ 30 := by
  unfold limitsTo
  split
  · have hlong := h.longest_le
    have hend := endWord_lt h.alphabet_le (show length ≤ Format.maxCodeLength by omega)
    omega
  · omega

theorem SetUp.search_eq (h : t.SetUp lengths shortest total)
    (hlength : length + left = Format.maxSearch) (hword : word < 2 ^ 30) :
    t.search left (Int32.ofNat word) =
      if (word : Int) ≤ limitsTo lengths shortest (shortest + total) length then
        t.symbolAt (Int32.ofNat word -
          Int32.ofInt (basesTo lengths shortest (shortest + total) length))
      else
        match left with
        | 0 => Scan.fail (.invalidCode .unassigned)
        | left + 1 => number 1 >>= fun bit => t.search left (Int32.ofNat (2 * word + bit)) := by
  obtain rfl : length = Format.maxSearch - left := by omega
  have hbounds := h.limit_bounds (Format.maxSearch - left)
  have hle := ofNat_le_ofInt_iff (show word < 2 ^ 31 by omega)
    (show -2 ^ 31 ≤ limitsTo lengths shortest (shortest + total) (Format.maxSearch - left) by omega)
    (by omega)
  have hlimit := h.limits.get_eq (Nat.lt_succ_of_le (Nat.sub_le Format.maxSearch left))
  have hbase := h.bases.get_eq
    (Nat.lt_succ_of_lt (Nat.lt_succ_of_le (Nat.sub_le Format.maxSearch left)))
  rw [search.eq_def]
  simp only [hlimit, hbase, hle]
  split
  · rfl
  · cases left with
    | zero => rfl
    | succ left => exact number_bind_congr fun bit hbit => by rw [shiftLeft_or word bit hword hbit]

theorem double_add_lt {word bit length : Nat} (hword : word < 2 ^ length) (hbit : bit < 2 ^ 1) :
    2 * word + bit < 2 ^ (length + 1) := by
  rw [Nat.pow_succ]
  omega

theorem lt_of_lt_pow {word length left : Nat} (hlength : length + left = Format.maxSearch)
    (hword : word < 2 ^ length) : word < 2 ^ 30 :=
  Nat.lt_of_lt_of_le hword (Nat.pow_le_pow_right (by decide)
    (Nat.le_trans (Nat.le_of_add_right_le (Nat.le_of_eq hlength)) (by decide)))

theorem SetUp.search_nil (h : t.SetUp lengths shortest total)
    (hlong : shortest + total ≤ length) (hlength : length + left = Format.maxSearch)
    (hword : word < 2 ^ length) (symbols : Array Nat) :
    t.search left (Int32.ofNat word) = Table.search symbols left word [] := by
  have hlimit : limitsTo lengths shortest (shortest + total) length = -1 := if_neg (by omega)
  have habove : ¬ (word : Int) ≤ -1 := by omega
  induction left generalizing word length with
  | zero =>
    rw [h.search_eq hlength (lt_of_lt_pow hlength hword), hlimit, if_neg habove, Table.search]
    rfl
  | succ left ih =>
    rw [h.search_eq hlength (lt_of_lt_pow hlength hword), hlimit, if_neg habove, Table.search]
    exact number_bind_congr fun bit hbit => ih (Nat.le_succ_of_le hlong)
      (by rw [← hlength, Nat.succ_add_eq_add_succ]) (double_add_lt hword hbit)
      (if_neg (by omega)) (by omega)

/-- Less the base of its length a word is the rank of its symbol. -/
theorem ofNat_sub_basesTo (hge : shortest ≤ length) (hlt : length < shortest + total)
    (hfirst : firstWord lengths length ≤ word) :
    Int32.ofNat word - Int32.ofInt (basesTo lengths shortest (shortest + total) length) =
      Int32.ofNat (shorterCount lengths length + (word - firstWord lengths length)) := by
  rw [← Int32.ofInt_eq_ofNat, ← Int32.ofInt_eq_ofNat, ← Int32.ofInt_sub, basesTo,
    if_pos ⟨hge, hlt⟩]
  congr 1
  omega

/-- A place below `2 ^ 31` is looked up among the symbols. -/
theorem symbolAt_of_some {place symbol : Nat} (hplace : place < 2 ^ 31)
    (hsymbol : symbol < 2 ^ 16) (hcell : t.symbols[place]? = some (UInt16.ofNat symbol)) :
    t.symbolAt (Int32.ofNat place) = pure symbol := by
  have hnonneg : 0 ≤ Int32.ofNat place := by
    rw [Int32.le_iff_toInt_le, toInt_ofNat_of_lt hplace]
    exact Int.natCast_nonneg _
  rw [symbolAt, if_pos hnonneg, toInt_ofNat_of_lt hplace, Int.toNat_natCast, hcell]
  show pure (UInt16.ofNat symbol).toNat = pure symbol
  rw [UInt16.toNat_ofNat', Nat.mod_eq_of_lt hsymbol]

/-- Below the limit of its length a word leads to the symbol of its rank. -/
theorem SetUp.symbolAt_eq (h : t.SetUp lengths shortest total) (hge : shortest ≤ length)
    (hlt : length < shortest + total) (hfirst : firstWord lengths length ≤ word)
    (hend : word < endWord lengths length) :
    t.symbolAt (Int32.ofNat word -
        Int32.ofInt (basesTo lengths shortest (shortest + total) length)) =
      Row.symbol ⟨firstWord lengths length, endWord lengths length, shorterCount lengths length⟩
        (orderOf lengths shortest total).toArray word := by
  have hrank : word - firstWord lengths length < lengths.count length := by
    unfold endWord at hend
    omega
  have hget := getElem?_flatMap_symbolsOfLength hge hlt hrank
  rw [shorterCount_eq_zero h.shortest_le, Nat.sub_zero] at hget
  have hroom := h.alphabet_le
  have hmax : Format.maxAlphabet = 258 := rfl
  have hshorter : shorterCount lengths length ≤ lengths.length := List.countP_le_length
  have hrankLe := Nat.le_trans (Nat.le_of_lt hrank) List.count_le_length
  obtain ⟨symbol, hsymbol⟩ : ∃ symbol, (symbolsOfLength lengths length)[
      word - firstWord lengths length]? = some symbol :=
    ⟨_, List.getElem?_eq_getElem (by rwa [length_symbolsOfLength])⟩
  rw [hsymbol] at hget
  have hsymbolLt := lt_of_mem_symbolsOfLength (List.mem_of_getElem? hsymbol)
  rw [ofNat_sub_basesTo hge hlt hfirst,
    symbolAt_of_some (by omega) (by omega) (h.symbols _ _ hget), Row.symbol, List.getElem?_toArray]
  simp only [orderOf, hget]

/-- A search in the cells is the search in the rows. -/
theorem SetUp.search_eq_table (h : t.SetUp lengths shortest total) (hge : shortest ≤ length)
    (hcount : length + count = shortest + total) (hlength : length + left = Format.maxSearch)
    (hfirst : firstWord lengths length ≤ word) (hword : word < 2 ^ length) :
    t.search left (Int32.ofNat word) =
      Table.search (orderOf lengths shortest total).toArray left word
        (rowsFrom lengths count length (firstWord lengths length)
          (shorterCount lengths length)) := by
  induction left generalizing length count word with
  | zero =>
    -- no code word is as long as the longest search
    have hlong := h.longest_le
    have hsearch : Format.maxSearch = 23 := rfl
    have hmax : Format.maxCodeLength = 20 := rfl
    omega
  | succ left ih =>
    cases count with
    | zero => exact h.search_nil (Nat.le_of_eq hcount.symm) hlength hword _
    | succ count =>
      have hlimit : limitsTo lengths shortest (shortest + total) length =
          (endWord lengths length : Int) - 1 := if_pos (by omega)
      rw [rowsFrom_succ, h.search_eq hlength (lt_of_lt_pow hlength hword), hlimit]
      by_cases hlt : word < endWord lengths length
      · rw [if_pos (by omega), search_of_lt hlt]
        exact h.symbolAt_eq hge (by omega) hfirst hlt
      · rw [if_neg (by omega), search_of_le (Nat.le_of_not_lt hlt)]
        refine number_bind_congr fun bit hbit => ?_
        have hrow := firstWord_succ lengths length
        exact ih (by omega) (by omega) (by omega) (by omega) (double_add_lt hword hbit)

/-! ## Tables -/

/-- Code lengths of at most 20 for an alphabet are set up without leaving the cells. -/
theorem exists_setUp (hroom : lengths.length ≤ Format.maxAlphabet)
    (hlengths : ∀ l ∈ lengths, l ≤ Format.maxCodeLength) :
    ∃ t, ofLengths? lengths = some t ∧ t.shortest = lengths.min?.getD 1 ∧
      t.SetUp lengths (lengths.min?.getD 1)
        (lengths.max?.getD 0 + 1 - lengths.min?.getD 1) := by
  have hsearch : Format.maxSearch = 23 := rfl
  have hmax : Format.maxCodeLength = 20 := rfl
  have hleast : ∀ l ∈ lengths, lengths.min?.getD 1 ≤ l := fun l hl => List.min?_getD_le_of_mem hl
  have hshortest : lengths.min?.getD 1 ≤ Format.maxCodeLength :=
    Table.shortest_le Format.maxCodeLength (by decide) hlengths
  have hlongest : lengths.max?.getD 0 ≤ Format.maxCodeLength := by
    cases hlast : lengths.max? with
    | none => exact Nat.zero_le _
    | some longest => exact hlengths longest (List.max?_mem hlast)
  unfold ofLengths?
  generalize lengths.min?.getD 1 = shortest at hleast hshortest ⊢
  generalize hcount : lengths.max?.getD 0 + 1 - shortest = total
  have hfirst := firstWord_eq_zero hleast
  have hshorter := shorterCount_eq_zero hleast
  obtain ⟨counts, hcounts, hcountsShow⟩ := countLengths_eq
    (fun l hl => Nat.le_trans (hlengths l hl) (by decide))
    (shows_replicate (Format.maxSearch + 2) (show (0 : Int32) = Int32.ofInt 0 from rfl))
  obtain ⟨sums, hsums, hsumsShow⟩ := addUp_eq (Nat.le_refl 1) (Nat.add_comm 1 _)
    (hcountsShow.congr fun i _ => (sumsTo_one lengths i).symm)
  obtain ⟨bases, limits, hlaid, hbases, hlimits⟩ := layOut_eq (Nat.le_refl shortest)
    (show shortest + total ≤ Format.maxSearch + 1 by omega)
    (hsumsShow.congr fun i _ => (if_neg (by omega)).symm)
    ((shows_replicate (Format.maxSearch + 1) (show (-1 : Int32) = Int32.ofInt (-1) from rfl)).congr
      fun i _ => (if_neg (by omega)).symm)
  obtain ⟨symbols, hsymbols, hholds⟩ := placeSymbols_eq
    (show Holds (Vector.replicate Format.maxAlphabet 0) [] from fun k symbol h => by cases h)
    hshorter.symm hroom
  rw [hfirst, show Int32.ofInt ((0 : Nat) : Int) = 0 from rfl] at hlaid
  rw [List.length_nil] at hsymbols
  have hfits : shortest ≤ Format.maxSearch := by omega
  refine ⟨⟨shortest, hfits, bases, limits, symbols⟩, ?_, rfl, hroom, hleast, by omega, hbases,
    hlimits, hholds⟩
  simp only [hcount, hcounts, hsums, hlaid, hsymbols, Option.bind_eq_bind, Option.bind_some]
  exact dif_pos hfits

/-- The cells decode as the rows do. -/
theorem decode_ofLengths? (hroom : lengths.length ≤ Format.maxAlphabet)
    (hlengths : ∀ l ∈ lengths, l ≤ Format.maxCodeLength) :
    ∃ t, ofLengths? lengths = some t ∧ t.decode = (Table.ofLengths lengths).decode := by
  obtain ⟨t, ht, hshortest, hsetUp⟩ := exists_setUp hroom hlengths
  refine ⟨t, ht, ?_⟩
  have hleast : ∀ l ∈ lengths, lengths.min?.getD 1 ≤ l := fun l hl => List.min?_getD_le_of_mem hl
  unfold decode Table.decode Table.ofLengths
  rw [hshortest]
  refine number_bind_congr fun word hword => ?_
  have hsearch := hsetUp.search_eq_table (Nat.le_refl _) rfl
    (Nat.add_sub_of_le (hshortest ▸ t.shortest_le)) (firstWord_eq_zero hleast ▸ Nat.zero_le word)
    hword
  rwa [firstWord_eq_zero hleast, shorterCount_eq_zero hleast] at hsearch

/-- A length between two others has a limit, also if no code word has it. -/
example : (ofLengths? [1, 3, 3]).map (fun t => (t.bases.toList.take 5, t.limits.toList.take 5)) =
    some ([0, 0, 1, 3, 3], [-1, 0, 1, 5, -1]) := by
  decide +kernel

end LimitTable

end Bunzip.Huffman
