import Bunzip.Proofs.Huffman.Decoder
import Bunzip.Proofs.Huffman.Kraft
import Bunzip.Proofs.Huffman.Lookahead
import Bunzip.Proofs.Huffman.Ranges
import Bunzip.Proofs.Scan.Layout

/-!
# Decoding is reading code words

With the bits of a longest search at hand, a table gives a symbol exactly if the bits begin with its
code word and with no shorter one (`Table.decode_eq_ok_iff`). If they begin with no code word, a
longest search is spent in vain (`Table.decode_of_unassigned`): the bits lie above the row of each
length (`Canonical.endWord_le_of_unassigned`). Where Kraft's inequality holds with equality there is
no room above the last row, so this does not happen (`Canonical.exists_of_complete`).

None of this asks whether the code lengths leave room for the words (`Decoder.reads_canonical`).
-/

namespace Bunzip.Huffman

open Scan Canonical

variable {lengths : List Nat} {symbol length : Nat} {bits : List Bool} {r next : BitReader}

namespace Canonical

/-- No code word begins the bits. -/
def Unassigned (lengths : List Nat) (bits : List Bool) : Prop :=
  ∀ symbol word, codeWord? lengths symbol = some word → ¬ word <+: bits

/-- Bits that begin with no code word lie above the row of each length. -/
theorem endWord_le_of_unassigned (h : Unassigned lengths bits) (hlength : length ≤ bits.length) :
    endWord lengths length ≤ Bits.value (bits.take length) := by
  have hrow (length : Nat) (hlength : length ≤ bits.length)
      (hfirst : firstWord lengths length ≤ Bits.value (bits.take length)) :
      endWord lengths length ≤ Bits.value (bits.take length) := by
    refine Nat.le_of_not_lt fun hlt => ?_
    have hfront : (bits.take length).length = length := List.length_take_of_le hlength
    have hrank : Bits.value (bits.take length) - firstWord lengths length <
        lengths.count length := by
      unfold endWord at hlt
      omega
    obtain ⟨symbol, hsymbol, hplace⟩ := exists_rank hrank
    have hword : codeWord? lengths symbol = some (bits.take length) := by
      refine codeWord?_of_rank (by rw [hfront, hsymbol]) ?_
      rw [hfront, hplace]
      omega
    exact h symbol _ hword (List.take_prefix length bits)
  induction length with
  | zero => exact hrow 0 hlength (Nat.zero_le _)
  | succ length ih =>
    have hend := ih (Nat.le_of_succ_le hlength)
    refine hrow _ hlength ?_
    rw [Table.value_take_succ hlength, firstWord_succ]
    omega

/-- A complete code has a word for any bits. -/
theorem exists_of_complete (h : Complete lengths) (hlengths : ∀ l ∈ lengths, l ≤ 20)
    (hbits : 20 ≤ bits.length) :
    ∃ symbol word, codeWord? lengths symbol = some word ∧ word <+: bits := by
  refine Classical.byContradiction fun hnone => ?_
  have hunassigned : Unassigned lengths bits := fun symbol word hword hbegins =>
    hnone ⟨symbol, word, hword, hbegins⟩
  have hall : lengths.filter (· ≤ 20) = lengths :=
    List.filter_eq_self.2 fun l hl => by simpa using hlengths l hl
  have hsum := endWord_mul_eq lengths (Nat.le_refl 20)
  rw [kraftSumTo, hall, h, Nat.sub_self, Nat.pow_zero, Nat.mul_one] at hsum
  have hle := endWord_le_of_unassigned hunassigned hbits
  have hlt := Bits.value_lt (bits.take 20)
  rw [List.length_take_of_le hbits] at hlt
  omega

end Canonical

/-! ## Searches in vain -/

/-- A scan that stops with this fault has taken `n` bits. -/
def StopsAfter {α : Type} (n : Nat) (fault : Fault) (scan : Scan α) : Prop :=
  ∀ r next, scan r = .error fault next → next.bits = r.bits.drop n

theorem StopsAfter.number_bind {α : Type} {m n : Nat} {fault : Fault} {rest : Nat → Scan α}
    (hfault : fault ≠ .defect .shortRead) (h : ∀ value, StopsAfter n fault (rest value)) :
    StopsAfter (m + n) fault (number m >>= rest) := by
  intro r next hrun
  change EStateM.bind (number m) rest r = _ at hrun
  rw [EStateM.bind] at hrun
  split at hrun
  · rename_i value mid hmid
    unfold number at hmid
    split at hmid
    · rename_i htake
      cases hmid
      obtain ⟨hle, rfl⟩ := BitReader.take?_eq_skip htake
      rw [h value _ next hrun, BitReader.bits_skip hle, List.drop_drop]
    · cases hmid
  · rename_i hmid
    cases hrun
    have hnone := blames_number (P := fun _ => False) m _ _ _ hmid
    exact absurd (hnone.resolve_right not_false) hfault

namespace Table

theorem stopsAfter_search (symbols : Array Nat) (left word : Nat) (rows : List Row) :
    StopsAfter left (.stream (.invalidCode .unassigned)) (search symbols left word rows) := by
  have hsymbol (left : Nat) (row : Row) (word : Nat) :
      StopsAfter left (.stream (.invalidCode .unassigned)) (row.symbol symbols word) := by
    unfold Row.symbol
    split
    · intro r next hrun
      cases hrun
    · intro r next hrun
      cases hrun
  induction left generalizing word rows with
  | zero =>
    unfold search
    split
    · exact hsymbol 0 _ word
    · intro r next hrun
      cases hrun
      rfl
  | succ left ih =>
    unfold search
    split
    · exact hsymbol (left + 1) _ word
    · have hmore := StopsAfter.number_bind (m := 1) (by simp) fun bit => ih (2 * word + bit) rows.tail
      rwa [Nat.add_comm] at hmore

theorem stopsAfter_decode {table : Table} (h : table.shortest ≤ Format.maxSearch) :
    StopsAfter Format.maxSearch (.stream (.invalidCode .unassigned)) table.decode := by
  have hdecode := StopsAfter.number_bind (m := table.shortest) (by simp) fun word =>
    stopsAfter_search table.symbols (Format.maxSearch - table.shortest) word table.rows
  rwa [Nat.add_sub_cancel' h] at hdecode

/-! ## Tables -/

/-- A symbol is given exactly if the bits begin with its code word and with no shorter one. -/
theorem decode_eq_ok_iff (h : ∀ l ∈ lengths, l ≤ Format.maxSearch) :
    (∃ next, (ofLengths lengths).decode r = .ok symbol next) ↔ Begins lengths r.bits symbol := by
  constructor
  · rintro ⟨next, hdecode⟩
    obtain ⟨word, hbits, hword⟩ := tells_decode lengths r symbol next hdecode
    refine ⟨word, hword, hbits ▸ List.prefix_append word next.bits, fun other shorter hother hle => ?_⟩
    refine Nat.le_of_not_lt fun hlt => ?_
    -- a shorter word would begin the one that was read
    obtain ⟨own, hown, -, hleast⟩ := begins_of_codeWord? hword
    rw [hword] at hown
    cases hown
    have hshorter : shorter <+: word :=
      List.prefix_of_prefix_length_le hle (hbits ▸ List.prefix_append word next.bits)
        (Nat.le_of_lt hlt)
    exact absurd (hleast other shorter hother hshorter) (Nat.not_le_of_lt hlt)
  · rintro ⟨word, hword, ⟨rest, hbits⟩, -⟩
    have hlength := h word.length (List.mem_of_getElem? (length_of_codeWord? hword))
    obtain ⟨next, hdecode, -⟩ := reads_decode hword hlength r rest hbits.symm
    exact ⟨next, hdecode⟩

/-- Bits that begin with no code word are refused after a longest search. -/
theorem decode_of_unassigned (hne : lengths ≠ [])
    (hbounds : ∀ l ∈ lengths, 1 ≤ l ∧ l ≤ Format.maxCodeLength)
    (hbits : Format.maxSearch ≤ r.bits.length) (h : Unassigned lengths r.bits) :
    ∃ next, (ofLengths lengths).decode r = .error (.stream (.invalidCode .unassigned)) next ∧
      next.bits = r.bits.drop Format.maxSearch := by
  have hshortest : (ofLengths lengths).shortest ≤ Format.maxSearch :=
    Nat.le_trans (shortest_le Format.maxCodeLength (by decide) fun l hl => (hbounds l hl).2)
      (by decide)
  rcases (decided_decode hshortest).mono hbits r.bits rfl with
    ⟨word, back, symbol, hword, hreads⟩ | ⟨fault, hne', hfails⟩
  · obtain ⟨next, hdecode, -⟩ := hreads r back hword
    obtain ⟨own, hown, hcode⟩ := tells_decode lengths r symbol next hdecode
    exact absurd (hown ▸ List.prefix_append own next.bits) (h symbol own hcode)
  · obtain ⟨next, hdecode⟩ := hfails r [] (List.append_nil _).symm
    obtain rfl : fault = .stream (.invalidCode .unassigned) :=
      ((inRange_ofLengths hne hbounds).blames r fault next hdecode).resolve_left hne'
    exact ⟨next, hdecode, stopsAfter_decode hshortest r next hdecode⟩

end Table

/-! ## Decoders -/

namespace Decoder

variable {d after : Decoder} {fault : Fault}

/-- The symbol with this index is read from the table of these code lengths. -/
def Uses (d : Decoder) (lengths : List Nat) (index : Nat) : Prop :=
  ∃ table, d.selectors[index / Format.groupSize]? = some table ∧
    d.tables[table]? = some (Table.ofLengths lengths)

theorem next_of_uses (h : d.Uses lengths d.position) :
    d.next = (Table.ofLengths lengths).decode >>= fun symbol =>
      pure (symbol, ⟨d.tables, d.selectors, d.position + 1⟩) := by
  obtain ⟨table, hselector, htable⟩ := h
  simp only [next, hselector, htable]

theorem next_eq_ok_iff (h : d.Uses lengths d.position) :
    d.next r = .ok (symbol, after) next ↔
      (Table.ofLengths lengths).decode r = .ok symbol next ∧
        after = ⟨d.tables, d.selectors, d.position + 1⟩ := by
  rw [next_of_uses h]
  show EStateM.bind (Table.ofLengths lengths).decode _ r = _ ↔ _
  rw [EStateM.bind]
  cases (Table.ofLengths lengths).decode r with
  | ok other mid =>
    constructor
    · rintro ⟨⟩
      exact ⟨rfl, rfl⟩
    · rintro ⟨⟨⟩, rfl⟩
      rfl
  | error other mid =>
    constructor
    · rintro ⟨⟩
    · rintro ⟨⟨⟩, -⟩

theorem next_eq_error_iff (h : d.Uses lengths d.position) :
    d.next r = .error fault next ↔ (Table.ofLengths lengths).decode r = .error fault next := by
  rw [next_of_uses h]
  show EStateM.bind (Table.ofLengths lengths).decode _ r = _ ↔ _
  rw [EStateM.bind]
  cases (Table.ofLengths lengths).decode r with
  | ok other mid =>
    constructor
    · rintro ⟨⟩
    · rintro ⟨⟩
  | error other mid =>
    constructor
    · rintro ⟨⟩
      rfl
    · rintro ⟨⟩
      rfl

/-- The next symbol is the one that its table gives. -/
theorem next_iff_begins (hlengths : ∀ l ∈ lengths, l ≤ Format.maxSearch)
    (h : d.Uses lengths d.position) :
    (∃ after next, d.next r = .ok (symbol, after) next) ↔ Begins lengths r.bits symbol := by
  rw [← Table.decode_eq_ok_iff hlengths]
  constructor
  · rintro ⟨after, next, hnext⟩
    exact ⟨next, ((next_eq_ok_iff h).1 hnext).1⟩
  · rintro ⟨next, hdecode⟩
    exact ⟨_, next, (next_eq_ok_iff h).2 ⟨hdecode, rfl⟩⟩

theorem taken_of_next (huses : d.Uses lengths d.position)
    (h : d.next r = .ok (symbol, after) next) :
    after = ⟨d.tables, d.selectors, d.position + 1⟩ ∧
      ∃ word, codeWord? lengths symbol = some word ∧ next.bits = r.bits.drop word.length := by
  obtain ⟨hdecode, hafter⟩ := (next_eq_ok_iff huses).1 h
  obtain ⟨word, hbits, hword⟩ := Table.tells_decode lengths r symbol next hdecode
  exact ⟨hafter, word, hword, by rw [hbits, List.drop_left]⟩

/-- Only bits that begin with no code word are refused. -/
theorem unassigned_of_next (hne : lengths ≠ [])
    (hbounds : ∀ l ∈ lengths, 1 ≤ l ∧ l ≤ Format.maxCodeLength)
    (huses : d.Uses lengths d.position) (hbits : Format.maxSearch ≤ r.bits.length)
    (h : d.next r = .error fault next) :
    Unassigned lengths r.bits ∧ fault = .stream (.invalidCode .unassigned) ∧
      next.bits = r.bits.drop Format.maxSearch := by
  have hdecode := (next_eq_error_iff huses).1 h
  have hnone : Unassigned lengths r.bits := by
    intro symbol word hword
    have hlength := (hbounds _ (List.mem_of_getElem? (length_of_codeWord? hword))).2
    exact Table.not_begins_of_decode hdecode hword (Nat.le_trans hlength (by decide))
  obtain ⟨other, hother, hdrop⟩ := Table.decode_of_unassigned hne hbounds hbits hnone
  rw [hdecode] at hother
  cases hother
  exact ⟨hnone, rfl, hdrop⟩

/-- Symbols are read back from their code words, one after the other. -/
theorem symbols_encode {symbols : List Nat} {rest : List Bool}
    (hlengths : ∀ l ∈ lengths, l ≤ Format.maxSearch)
    (huses : ∀ k < symbols.length, d.Uses lengths (d.position + k))
    (hwords : ∀ symbol ∈ symbols, ∃ word, codeWord? lengths symbol = some word)
    (hbits : r.bits = encode lengths symbols ++ rest)
    (hmore : ∀ k < symbols.length,
      Format.maxSearch ≤ (encode lengths (symbols.drop k) ++ rest).length)
    (given : Array Nat) :
    ∃ next, d.symbols symbols.length r given = ⟨given ++ symbols, none, next⟩ ∧
      next.bits = rest := by
  induction symbols generalizing d r given with
  | nil => exact ⟨r, by simp [Decoder.symbols], hbits⟩
  | cons symbol symbols ih =>
    obtain ⟨word, hword⟩ := hwords symbol List.mem_cons_self
    have hsplit : encode lengths (symbol :: symbols) = word ++ encode lengths symbols := by
      rw [encode, List.flatMap_cons, hword]
      rfl
    have hhas : r.hasBits Format.maxSearch = true := by
      rw [r.hasBits_iff, hbits]
      exact hmore 0 (Nat.succ_pos _)
    obtain ⟨table, hselector, htable⟩ := huses 0 (Nat.succ_pos _)
    have hlength := hlengths word.length (List.mem_of_getElem? (length_of_codeWord? hword))
    obtain ⟨mid, hmid, hrest⟩ := Decoder.reads_next hselector htable hword hlength r
      (encode lengths symbols ++ rest) (by rw [hbits, hsplit, List.append_assoc])
    have hnext (k : Nat) (hk : k < symbols.length) :
        Uses ⟨d.tables, d.selectors, d.position + 1⟩ lengths (d.position + 1 + k) := by
      have huse := huses (k + 1) (Nat.succ_lt_succ hk)
      rwa [Nat.add_comm k, ← Nat.add_assoc] at huse
    obtain ⟨last, hlast, hend⟩ := ih (d := ⟨d.tables, d.selectors, d.position + 1⟩) hnext
      (fun other hother => hwords other (List.mem_cons_of_mem _ hother)) hrest
      (fun k hk => hmore (k + 1) (Nat.succ_lt_succ hk)) (given.push symbol)
    refine ⟨last, ?_, hend⟩
    rw [List.length_cons, Decoder.symbols, if_pos hhas, hmid]
    simp only [hlast]
    simp

/-- Decoding is reading canonical code words. From the bits of a longest search the next symbol is
the one whose code word begins them, the shortest that does, and exactly this word is taken; if none
does, decoding fails, and takes the bits of a longest search. So symbols are read back from their
code words if these have room, and no bits are refused if they use up the room. -/
theorem reads_canonical (hne : lengths ≠ [])
    (hbounds : ∀ l ∈ lengths, 1 ≤ l ∧ l ≤ Format.maxCodeLength) :
    (∀ (d : Decoder) (r : BitReader), d.Uses lengths d.position →
      Format.maxSearch ≤ r.bits.length →
      (∀ symbol, (∃ after next, d.next r = .ok (symbol, after) next) ↔
        Begins lengths r.bits symbol) ∧
      (∀ symbol after next, d.next r = .ok (symbol, after) next →
        after = ⟨d.tables, d.selectors, d.position + 1⟩ ∧
          ∃ word, codeWord? lengths symbol = some word ∧
            next.bits = r.bits.drop word.length) ∧
      ((∃ why next, d.next r = .error (.stream (.invalidCode why)) next) ↔
        Unassigned lengths r.bits) ∧
      ∀ fault next, d.next r = .error fault next →
        fault = .stream (.invalidCode .unassigned) ∧
          next.bits = r.bits.drop Format.maxSearch) ∧
    (Fits lengths → ∀ (d : Decoder) (r : BitReader) (symbols : List Nat) (rest : List Bool),
      (∀ symbol ∈ symbols, symbol < lengths.length) →
      (∀ k < symbols.length, d.Uses lengths (d.position + k)) →
      (∀ k < symbols.length,
        Format.maxSearch ≤ (encode lengths (symbols.drop k) ++ rest).length) →
      r.bits = encode lengths symbols ++ rest →
      ∃ next, d.symbols symbols.length r #[] = ⟨symbols.toArray, none, next⟩ ∧
        next.bits = rest) ∧
    (Complete lengths → ∀ (d : Decoder) (r : BitReader), d.Uses lengths d.position →
      Format.maxSearch ≤ r.bits.length →
      ∃ symbol after next, d.next r = .ok (symbol, after) next) := by
  have hlengths : ∀ l ∈ lengths, l ≤ Format.maxSearch := fun l hl =>
    Nat.le_trans (hbounds l hl).2 (by decide)
  refine ⟨fun d r huses hbits => ⟨fun symbol => next_iff_begins hlengths huses,
    fun symbol after next => taken_of_next huses, ⟨?_, fun hnone => ?_⟩, fun fault next hnext => ?_⟩,
    fun hfits d r symbols rest hsymbols huses hmore hbits => ?_, fun hcomplete d r huses hbits => ?_⟩
  · rintro ⟨why, next, hnext⟩
    exact (unassigned_of_next hne hbounds huses hbits hnext).1
  · obtain ⟨next, hdecode, -⟩ := Table.decode_of_unassigned hne hbounds hbits hnone
    exact ⟨_, next, (next_eq_error_iff huses).2 hdecode⟩
  · exact (unassigned_of_next hne hbounds huses hbits hnext).2
  · have hwords (symbol : Nat) (hsymbol : symbol ∈ symbols) :
        ∃ word, codeWord? lengths symbol = some word := by
      have hget := List.getElem?_eq_getElem (hsymbols symbol hsymbol)
      exact codeWord?_of_fits hfits hget (hbounds _ (List.mem_of_getElem? hget)).2
    obtain ⟨next, hread, hrest⟩ := symbols_encode hlengths huses hwords hbits hmore #[]
    exact ⟨next, by simpa using hread, hrest⟩
  · cases hnext : d.next r with
    | ok value next => exact ⟨value.1, value.2, next, rfl⟩
    | error fault next =>
      obtain ⟨hnone, -⟩ := unassigned_of_next hne hbounds huses hbits hnext
      obtain ⟨symbol, word, hword, hbegins⟩ := exists_of_complete hcomplete
        (fun l hl => (hbounds l hl).2) (Nat.le_trans (by decide) hbits)
      exact absurd hbegins (hnone symbol word hword)

/-- Words of three lengths that use up the room, in front of the bits of a last search. -/
theorem reads_canonical_complete :
    ∃ next, Decoder.symbols 4 ⟨#[Table.ofLengths [2, 3, 1, 3]], #[0], 0⟩
        (BitReader.bind BitState.empty [0x9b, 0x80, 0, 0]) #[] = ⟨#[0, 2, 1, 3], none, next⟩ ∧
      next.bits = List.replicate 23 false := by
  obtain ⟨-, hread, -⟩ := reads_canonical (show [2, 3, 1, 3] ≠ [] by decide) (by decide)
  refine hread (by decide) _ _ [0, 2, 1, 3] _ (by decide) (fun k hk => ⟨0, ?_, rfl⟩) (by decide)
    (by decide)
  have hgroup : (0 + k) / Format.groupSize = 0 := by
    simp only [List.length_cons, List.length_nil] at hk
    unfold Format.groupSize
    omega
  rw [hgroup]
  rfl

end Decoder

end Bunzip.Huffman
