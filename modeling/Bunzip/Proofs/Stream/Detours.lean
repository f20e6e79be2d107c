import Bunzip.Proofs.Stream.Fields
import Bunzip.Proofs.UsedMap
import Bunzip.Stream.Encoding

/-!
# Detours of a code length

Between two code lengths a text may step up and down as often as it likes. The running length is
kept in a word of 32 bits, and what counts is the word that is reached (`LengthText.stored`): a text
is `Readable` if it is valid once the same code lengths are written straight. Below `2 ^ 30` steps
in each table the word is the number itself, and then the readable texts are the valid ones
(`StreamText.Valid.readable`, `StreamText.Readable.valid_or_long`). With as many steps as one likes
a text is readable still, and not valid any more (`StreamText.detour`, `StreamText.Long.not_valid`).
-/

namespace Bunzip.Stream

open Huffman Block

theorem mem_or_exists_of_mem_modifyHead {α : Type} {f : α → α} {a : α} {as : List α}
    (h : a ∈ as.modifyHead f) : a ∈ as ∨ ∃ first ∈ as, a = f first := by
  cases as with
  | nil => cases h
  | cons first as =>
    rcases List.mem_cons.1 h with rfl | h
    · exact .inr ⟨first, List.mem_cons_self, rfl⟩
    · exact .inl (List.mem_cons_of_mem _ h)

namespace LengthText

/-! ## Running lengths -/

/-- A length after some steps. -/
def stepped (length : Int) (steps : List Bool) : Int :=
  steps.foldl (fun length down => if down then length - 1 else length + 1) length

theorem running_cons (length : Int) (steps : List Bool) (rest : List (List Bool)) :
    running length (steps :: rest) =
      stepped length steps :: running (stepped length steps) rest := rfl

theorem length_running (length : Int) (steps : List (List Bool)) :
    (running length steps).length = steps.length := by
  induction steps generalizing length with
  | nil => rfl
  | cons first steps ih => rw [running_cons, List.length_cons, List.length_cons, ih]

theorem stepped_append (length : Int) (front back : List Bool) :
    stepped length (front ++ back) = stepped (stepped length front) back :=
  List.foldl_append

theorem running_append (length : Int) (front back : List (List Bool)) :
    running length (front ++ back) =
      running length front ++ running (stepped length front.flatten) back := by
  induction front generalizing length with
  | nil => rfl
  | cons steps front ih =>
    rw [List.cons_append, running_cons, running_cons, ih, List.flatten_cons, stepped_append,
      List.cons_append]

theorem stepped_bounds (length : Int) (steps : List Bool) :
    length - steps.length ≤ stepped length steps ∧
      stepped length steps ≤ length + steps.length := by
  induction steps generalizing length with
  | nil => simp [stepped]
  | cons down steps ih =>
    have hrest := ih (if down then length - 1 else length + 1)
    have hcons : stepped length (down :: steps) =
        stepped (if down then length - 1 else length + 1) steps := rfl
    rw [hcons, List.length_cons]
    cases down <;> simp only [Bool.false_eq_true, if_true, if_false] at hrest ⊢ <;> omega

theorem running_bounds (length : Int) (steps : List (List Bool)) :
    ∀ reached ∈ running length steps, length - steps.flatten.length ≤ reached ∧
      reached ≤ length + steps.flatten.length := by
  induction steps generalizing length with
  | nil => intro reached h; cases h
  | cons first steps ih =>
    have hfirst := stepped_bounds length first
    intro reached h
    rw [running_cons] at h
    rw [List.flatten_cons, List.length_append]
    rcases List.mem_cons.1 h with rfl | h
    · omega
    · have := ih _ reached h
      omega

/-! ## Words of 32 bits -/

/-- A running length as its word of 32 bits says it. -/
def wrapped (length : Int) : Int := (Int32.ofInt length).toInt

theorem wrapped_of_bounds {length : Int} (hge : -2 ^ 31 ≤ length) (hlt : length < 2 ^ 31) :
    wrapped length = length :=
  Int32.toInt_ofInt_of_le hge hlt

/-- The code lengths as they are stored. -/
def stored (t : LengthText) : List Nat := t.lengths.map fun length => (wrapped length).toNat

/-- The same code lengths without detours. -/
def straight (t : LengthText) : LengthText := ofLengths t.stored

theorem length_stored (t : LengthText) : t.stored.length = t.steps.length := by
  rw [stored, List.length_map, lengths, length_running]

/-- With fewer than `2 ^ 30` steps no running length wraps. -/
theorem wrapped_of_mem {t : LengthText} (hstart : t.start < 32)
    (hsteps : t.steps.flatten.length < 2 ^ 30) : ∀ length ∈ t.lengths, wrapped length = length := by
  intro length hlength
  have := running_bounds t.start t.steps length hlength
  exact wrapped_of_bounds (by omega) (by omega)

theorem length_bits_ge (t : LengthText) : 2 * t.steps.flatten.length ≤ t.bits.length := by
  have hsteps (steps : List Bool) : (steps.flatMap fun down => [true, down]).length =
      2 * steps.length := by
    induction steps with
    | nil => rfl
    | cons down steps ih =>
      rw [List.flatMap_cons, List.length_append, ih, List.length_cons, List.length_cons,
        List.length_cons, List.length_nil]
      omega
  have hall (steps : List (List Bool)) :
      2 * steps.flatten.length ≤ (steps.flatMap stepBits).length := by
    induction steps with
    | nil => exact Nat.le_refl _
    | cons first steps ih =>
      rw [List.flatten_cons, List.flatMap_cons, List.length_append, List.length_append, stepBits,
        List.length_append, hsteps]
      omega
  rw [bits, List.length_append]
  exact Nat.le_add_left_of_le (hall t.steps)

/-! ## Straight texts -/

theorem length_stepsThrough (current : Nat) (lengths : List Nat) :
    (stepsThrough current lengths).length = lengths.length := by
  induction lengths generalizing current with
  | nil => rfl
  | cons wanted rest ih => rw [stepsThrough, List.length_cons, List.length_cons, ih]

theorem length_flatten_stepsThrough_le (current bound : Nat) {lengths : List Nat}
    (hcurrent : current ≤ bound) (h : ∀ length ∈ lengths, length ≤ bound) :
    (stepsThrough current lengths).flatten.length ≤ bound * lengths.length := by
  induction lengths generalizing current with
  | nil => simp [stepsThrough]
  | cons wanted rest ih =>
    have hwanted := h wanted List.mem_cons_self
    have hrest := ih wanted hwanted fun length hlength => h length (List.mem_cons_of_mem _ hlength)
    have hfirst : (stepsTo current wanted).length ≤ bound := by
      rw [stepsTo, List.length_append, List.length_replicate, List.length_replicate]
      omega
    rw [stepsThrough, List.flatten_cons, List.length_append, List.length_cons, Nat.mul_add]
    omega

/-- Code lengths of a whole alphabet are written as a valid table. -/
theorem validTable_ofLengths {alphabet : Nat} {lengths : List Nat}
    (hlength : lengths.length = alphabet) (halphabet : alphabet ≤ Format.maxAlphabet)
    (h : ∀ length ∈ lengths, 1 ≤ length ∧ length ≤ Format.maxCodeLength) :
    BlockText.ValidTable alphabet (ofLengths lengths) := by
  have hmaxLength : Format.maxCodeLength = 20 := rfl
  have hmaxAlphabet : Format.maxAlphabet = 258 := rfl
  have hstart : lengths.headD 0 ≤ 20 := by
    cases lengths with
    | nil => exact Nat.zero_le _
    | cons first rest => exact (h first List.mem_cons_self).2
  have hsteps := length_flatten_stepsThrough_le (lengths.headD 0) 20 hstart fun length hmem =>
    (h length hmem).2
  refine ⟨Nat.lt_of_le_of_lt hstart (by decide), (length_stepsThrough _ _).trans hlength, ?_, ?_⟩
  · show (stepsThrough _ lengths).flatten.length < 2 ^ 30
    omega
  · rw [lengths_ofLengths]
    intro length hmem
    obtain ⟨n, hn, rfl⟩ := List.mem_map.1 hmem
    have := h n hn
    constructor <;> simp only [Int.ofNat_eq_natCast] <;> omega

theorem toNat_ofLengths (lengths : List Nat) :
    (ofLengths lengths).lengths.map Int.toNat = lengths := by
  rw [lengths_ofLengths, List.map_map]
  exact List.map_id lengths

/-! ## Steps up and down -/

/-- The table with as many steps up and down in front of its steps. -/
def detour (turns : Nat) (t : LengthText) : LengthText :=
  { t with steps := t.steps.modifyHead ((List.replicate turns [false, true]).flatten ++ ·) }

theorem stepped_turns (turns : Nat) (length : Int) :
    stepped length (List.replicate turns [false, true]).flatten = length := by
  induction turns with
  | zero => rfl
  | succ turns ih =>
    have hturn : stepped length [false, true] = length := Int.add_sub_cancel length 1
    rw [List.replicate_succ, List.flatten_cons, stepped_append, hturn, ih]

theorem lengths_detour (turns : Nat) (t : LengthText) : (t.detour turns).lengths = t.lengths := by
  obtain ⟨start, steps⟩ := t
  cases steps with
  | nil => rfl
  | cons first steps =>
    show running start (((List.replicate turns [false, true]).flatten ++ first) :: steps) = _
    rw [running_cons, stepped_append, stepped_turns]
    rfl

theorem straight_detour (turns : Nat) (t : LengthText) :
    (t.detour turns).straight = t.straight := by
  rw [straight, stored, lengths_detour]
  rfl

theorem length_steps_detour (turns : Nat) (t : LengthText) :
    (t.detour turns).steps.length = t.steps.length :=
  List.length_modifyHead

theorem le_length_detour (turns : Nat) {t : LengthText} (h : t.steps ≠ []) :
    2 * turns ≤ (t.detour turns).steps.flatten.length := by
  obtain ⟨start, steps⟩ := t
  obtain ⟨first, steps, rfl⟩ := List.exists_cons_of_ne_nil h
  have hturns : (List.replicate turns [false, true]).flatten.length = 2 * turns := by
    rw [List.length_flatten, List.map_replicate, List.sum_replicate_nat]
    exact Nat.mul_comm turns 2
  simp only [detour, List.modifyHead_cons, List.flatten_cons, List.length_append, hturns]
  omega

end LengthText

/-! ## Readable blocks -/

namespace BlockText

open LengthText

variable {b : BlockText} {blockSize alphabet : Nat} {t : LengthText}

/-- The rules for a code table that may make detours: the word of each length is between 1 and
20. -/
structure ReadableTable (alphabet : Nat) (t : LengthText) : Prop where
  start_lt : t.start < 32
  length_steps : t.steps.length = alphabet
  wrapped_mem : ∀ length ∈ t.lengths,
    1 ≤ wrapped length ∧ wrapped length ≤ Format.maxCodeLength

/-- The block with its code lengths written straight. -/
def straight (b : BlockText) : BlockText := { b with tables := b.tables.map LengthText.straight }

/-- The rules for a block whose code lengths may make detours. -/
structure Readable (blockSize : Nat) (b : BlockText) : Prop where
  tables_readable : ∀ t ∈ b.tables, ReadableTable b.alphabet t
  straight_valid : b.straight.Valid blockSize

/-- The fields of a block before its payload. -/
def headBits (b : BlockText) : List Bool :=
  Bits.ofNat 48 Format.blockMark ++ Bits.ofNat 32 b.stored.toNat ++ [b.randomised] ++
    Bits.ofNat 24 b.pointer ++ Bits.ofNat 16 b.groups.toNat ++
    (b.bitmaps.flatMap fun bitmap => Bits.ofNat 16 bitmap.toNat) ++
    Bits.ofNat 3 b.tables.length ++ Bits.ofNat 15 b.positions.length ++
    b.positions.flatMap Field.unaryBits ++ b.tables.flatMap LengthText.bits

theorem bits_eq (b : BlockText) : b.bits = b.headBits ++ b.payloadBits := rfl

/-- The fields of the block, with the code words of the code lengths that are stored. -/
def wordBits (b : BlockText) : List Bool := b.headBits ++ b.straight.payloadBits

def tableLengths (b : BlockText) : List (List Nat) :=
  b.tables.map fun t => t.lengths.map Int.toNat

theorem tableLengths_straight (b : BlockText) :
    b.straight.tableLengths = b.tables.map LengthText.stored := by
  rw [tableLengths, straight, List.map_map]
  exact List.map_congr_left fun t _ => toNat_ofLengths t.stored

theorem selectors_straight (b : BlockText) : b.straight.selectors = b.selectors := by
  simp [selectors, straight]

theorem lengthsAt_eq (b : BlockText) (index : Nat) :
    b.lengthsAt index = b.tableLengths.getD (b.selectors.getD (index / Format.groupSize) 0) [] := by
  simp only [lengthsAt, tableLengths, List.getD_eq_getElem?_getD, List.getElem?_map]
  cases b.tables[b.selectors[index / Format.groupSize]?.getD 0]? <;> rfl

theorem ValidTable.stored_eq (h : ValidTable alphabet t) :
    t.stored = t.lengths.map Int.toNat :=
  List.map_congr_left fun length hlength => by
    rw [wrapped_of_mem h.start_lt h.steps_lt length hlength]

theorem ValidTable.readable (h : ValidTable alphabet t) : ReadableTable alphabet t := by
  refine ⟨h.start_lt, h.length_steps, fun length hlength => ?_⟩
  rw [wrapped_of_mem h.start_lt h.steps_lt length hlength]
  exact h.lengths_mem length hlength

theorem ReadableTable.valid (h : ReadableTable alphabet t)
    (hsteps : t.steps.flatten.length < 2 ^ 30) : ValidTable alphabet t := by
  refine ⟨h.start_lt, h.length_steps, hsteps, fun length hlength => ?_⟩
  rw [← wrapped_of_mem h.start_lt hsteps length hlength]
  exact h.wrapped_mem length hlength

/-- The stored lengths of a table can be written straight. -/
theorem ReadableTable.straight (h : ReadableTable alphabet t)
    (halphabet : alphabet ≤ Format.maxAlphabet) : ValidTable alphabet t.straight := by
  refine validTable_ofLengths ((length_stored t).trans h.length_steps) halphabet
    fun length hmem => ?_
  obtain ⟨reached, hreached, rfl⟩ := List.mem_map.1 hmem
  have := h.wrapped_mem reached hreached
  omega

theorem tableLengths_straight_of_valid (h : ∀ t ∈ b.tables, ValidTable alphabet t) :
    b.straight.tableLengths = b.tableLengths := by
  rw [tableLengths_straight]
  exact List.map_congr_left fun t ht => (h t ht).stored_eq

theorem lengthsAt_straight (h : ∀ t ∈ b.tables, ValidTable alphabet t) (index : Nat) :
    b.straight.lengthsAt index = b.lengthsAt index := by
  rw [lengthsAt_eq, lengthsAt_eq, tableLengths_straight_of_valid h, selectors_straight]

theorem wordBits_eq_bits (h : ∀ t ∈ b.tables, ValidTable alphabet t) : b.wordBits = b.bits := by
  rw [bits_eq, wordBits]
  simp only [payloadBits, lengthsAt_straight h]
  rfl

theorem Valid.straight (h : b.Valid blockSize) : b.straight.Valid blockSize where
  length_bitmaps := h.length_bitmaps
  used_ne_nil := h.used_ne_nil
  tables_ge := by
    rw [BlockText.straight, List.length_map]
    exact h.tables_ge
  tables_le := by
    rw [BlockText.straight, List.length_map]
    exact h.tables_le
  selectors_ge := h.selectors_ge
  selectors_le := h.selectors_le
  positions_lt := by
    simp only [BlockText.straight, List.length_map]
    exact h.positions_lt
  tables_valid := by
    intro t ht
    obtain ⟨other, hother, rfl⟩ := List.mem_map.1 ht
    refine (h.tables_valid other hother).readable.straight ?_
    have := UsedMap.length_decode_le b.groups b.bitmaps
    exact Nat.add_le_add_right this 2
  ends := h.ends
  selectors_suffice := h.selectors_suffice
  resolves := by
    intro symbol index hmem
    rw [lengthsAt_straight h.tables_valid]
    exact h.resolves symbol index hmem
  column_le := h.column_le
  pointer_lt_column := h.pointer_lt_column
  stored_eq := h.stored_eq

theorem Valid.readable (h : b.Valid blockSize) : b.Readable blockSize :=
  ⟨fun t ht => (h.tables_valid t ht).readable, h.straight⟩

/-- A readable block that is not valid has a table with `2 ^ 30` steps or more. -/
theorem Readable.valid (h : b.Readable blockSize)
    (hsteps : ∀ t ∈ b.tables, t.steps.flatten.length < 2 ^ 30) : b.Valid blockSize := by
  have htables : ∀ t ∈ b.tables, ValidTable b.alphabet t := fun t ht =>
    (h.tables_readable t ht).valid (hsteps t ht)
  have hlength : b.straight.tables.length = b.tables.length := List.length_map _
  obtain ⟨length_bitmaps, used_ne_nil, tables_ge, tables_le, selectors_ge, selectors_le,
    positions_lt, -, ends, selectors_suffice, resolves, column_le, pointer_lt, stored_eq⟩ :=
    h.straight_valid
  rw [hlength] at tables_ge tables_le positions_lt
  refine ⟨length_bitmaps, used_ne_nil, tables_ge, tables_le, selectors_ge, selectors_le,
    positions_lt, htables, ends, selectors_suffice, fun symbol index hmem => ?_, column_le,
    pointer_lt, stored_eq⟩
  rw [← lengthsAt_straight htables]
  exact resolves symbol index hmem

/-- The block with a detour in its first table. -/
def detour (turns : Nat) (b : BlockText) : BlockText :=
  { b with tables := b.tables.modifyHead (LengthText.detour turns) }

theorem ReadableTable.detour (h : ReadableTable alphabet t) (turns : Nat) :
    ReadableTable alphabet (t.detour turns) :=
  ⟨h.start_lt, (length_steps_detour turns t).trans h.length_steps, by
    rw [lengths_detour]
    exact h.wrapped_mem⟩

theorem straight_detour (turns : Nat) (b : BlockText) :
    (b.detour turns).straight = b.straight := by
  obtain ⟨stored, randomised, pointer, groups, bitmaps, positions, tables, symbols⟩ := b
  cases tables with
  | nil => rfl
  | cons t tables =>
    simp only [detour, straight, List.modifyHead_cons, List.map_cons,
      LengthText.straight_detour]

theorem Readable.tables_ne_nil (h : b.Readable blockSize) : b.tables ≠ [] := by
  have hge := h.straight_valid.tables_ge
  rw [straight, List.length_map] at hge
  exact List.ne_nil_of_length_pos (Nat.lt_of_lt_of_le (by decide) hge)

theorem Readable.steps_ne_nil (h : b.Readable blockSize) (ht : t ∈ b.tables) : t.steps ≠ [] := by
  have hlength := (h.tables_readable t ht).length_steps
  exact List.ne_nil_of_length_pos (hlength ▸ Nat.succ_pos _)

/-- With a detour a block is as readable as before. -/
theorem Readable.detour (h : b.Readable blockSize) (turns : Nat) :
    (b.detour turns).Readable blockSize := by
  refine ⟨fun t ht => ?_, ?_⟩
  · rcases mem_or_exists_of_mem_modifyHead ht with ht | ⟨first, hfirst, rfl⟩
    · exact h.tables_readable t ht
    · exact (h.tables_readable first hfirst).detour turns
  · rw [straight_detour]
    exact h.straight_valid

end BlockText

/-! ## Readable streams -/

namespace StreamText

variable {t : StreamText}

/-- The rules for a stream whose code lengths may make detours. -/
structure Readable (t : StreamText) : Prop where
  digit_ge : 1 ≤ t.digit
  digit_le : t.digit ≤ 9
  blocks_readable : ∀ b ∈ t.blocks, b.Readable t.blockSize

/-- The header, the blocks, and the mark of the end with the checksum. -/
def wordBits (t : StreamText) : List Bool :=
  Bits.ofNat 24 Format.signature ++ Bits.ofNat 8 (0x30 + t.digit) ++
    t.blocks.flatMap BlockText.wordBits ++ Bits.ofNat 48 Format.endMark ++
    Bits.ofNat 32 t.checksum.toNat

/-- Some table has `2 ^ 30` steps or more. -/
def Long (t : StreamText) : Prop :=
  ∃ b ∈ t.blocks, ∃ table ∈ b.tables, 2 ^ 30 ≤ table.steps.flatten.length

theorem Readable.blockSize_le (h : t.Readable) : t.blockSize ≤ 2 ^ 24 := by
  have hle := h.digit_le
  unfold blockSize Format.blockUnit
  omega

/-- A long table has room only in a long stream. -/
theorem Long.length_wordBits (h : t.Long) : 2 ^ 31 ≤ t.wordBits.length := by
  obtain ⟨b, hb, table, htable, hsteps⟩ := h
  have htableBits : table.bits.length ≤ (b.tables.flatMap LengthText.bits).length :=
    (List.sublist_flatten_of_mem (List.mem_map_of_mem htable)).length_le
  have hblockBits : b.wordBits.length ≤ (t.blocks.flatMap BlockText.wordBits).length :=
    (List.sublist_flatten_of_mem (List.mem_map_of_mem hb)).length_le
  have hstepBits := table.length_bits_ge
  have hblock : (b.tables.flatMap LengthText.bits).length ≤ b.wordBits.length := by
    simp only [BlockText.wordBits, BlockText.headBits, List.length_append]
    omega
  have hstream : (t.blocks.flatMap BlockText.wordBits).length ≤ t.wordBits.length := by
    simp only [wordBits, List.length_append]
    omega
  omega

theorem Valid.readable (h : t.Valid) : t.Readable :=
  ⟨h.digit_ge, h.digit_le, fun b hb => (h.blocks_valid b hb).readable⟩

theorem Valid.wordBits_eq (h : t.Valid) : t.wordBits = t.bits := by
  have hblocks : t.blocks.flatMap BlockText.wordBits = t.blocks.flatMap BlockText.bits := by
    rw [List.flatMap_def, List.flatMap_def, List.map_congr_left fun b hb =>
      BlockText.wordBits_eq_bits (h.blocks_valid b hb).tables_valid]
  rw [wordBits, bits, hblocks]

/-- A readable stream is valid, or one of its tables is long. -/
theorem Readable.valid_or_long (h : t.Readable) : t.Valid ∨ t.Long := by
  by_cases hlong : t.Long
  · exact .inr hlong
  refine .inl ⟨h.digit_ge, h.digit_le, fun b hb => ?_⟩
  refine (h.blocks_readable b hb).valid fun table ht => ?_
  exact Nat.lt_of_not_le fun hle => hlong ⟨b, hb, table, ht, hle⟩

def detour (turns : Nat) (t : StreamText) : StreamText :=
  { t with blocks := t.blocks.modifyHead (BlockText.detour turns) }

theorem Readable.detour (h : t.Readable) (turns : Nat) : (t.detour turns).Readable := by
  refine ⟨h.digit_ge, h.digit_le, fun b hb => ?_⟩
  rcases mem_or_exists_of_mem_modifyHead hb with hb | ⟨first, hfirst, rfl⟩
  · exact h.blocks_readable b hb
  · exact (h.blocks_readable first hfirst).detour turns

/-- A detour may be as long as one likes. -/
theorem Readable.long_detour (h : t.Readable) (hblocks : t.blocks ≠ []) {turns : Nat}
    (hturns : 2 ^ 29 ≤ turns) : (t.detour turns).Long := by
  obtain ⟨digit, blocks⟩ := t
  obtain ⟨b, blocks, rfl⟩ := List.exists_cons_of_ne_nil hblocks
  have hb := h.blocks_readable b List.mem_cons_self
  obtain ⟨table, tables, htables⟩ := List.exists_cons_of_ne_nil hb.tables_ne_nil
  refine ⟨b.detour turns, List.mem_cons_self, table.detour turns, ?_, ?_⟩
  · rw [BlockText.detour, htables]
    exact List.mem_cons_self
  · have hsteps := table.le_length_detour turns
      (hb.steps_ne_nil (by rw [htables]; exact List.mem_cons_self))
    omega

theorem Long.not_valid (h : t.Long) : ¬ t.Valid := by
  obtain ⟨b, hb, table, htable, hsteps⟩ := h
  exact fun hvalid => absurd ((hvalid.blocks_valid b hb).tables_valid table htable).steps_lt
    (Nat.not_lt_of_le hsteps)

end StreamText

end Bunzip.Stream
