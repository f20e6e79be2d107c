import Bunzip.Proofs.Stream.Serving

/-!
# What the fields of a block have read

The converse of the words that fields read: a field that is read adds its word to the text of the
block that has begun. `Phase.Begun` states for each place in a block what has been read of it and
what is known from it; every field leads from a block that has begun to one that has gone on, or to
the end of the stream (`Field.tells_read`).
-/

namespace Bunzip.Stream

open Scan Huffman Block

/-! ## Words of fields -/

namespace Field

theorem tells_readStreamHeader : Tells readStreamHeader fun word after =>
    ∃ digit, 1 ≤ digit ∧ digit ≤ 9 ∧ after = ⟨.field .blockHeader, digit * Format.blockUnit, 0⟩ ∧
      word = Bits.ofNat 24 Format.signature ++ Bits.ofNat 8 (0x30 + digit) := by
  refine (tells_number 24).bind fun mark front ⟨hfront, _⟩ => ?_
  refine tells_ite (fun _ => tells_fail _) fun hmark => ?_
  refine (tells_number 8).bind fun digit back ⟨hback, _⟩ => ?_
  refine tells_ite (fun _ => tells_fail _) fun hdigit => tells_pure ?_
  refine ⟨digit - 0x30, by omega, by omega, rfl, ?_⟩
  rw [List.append_nil, hfront, hback, Decidable.not_not.1 hmark, Nat.add_sub_cancel' (by omega)]

theorem tells_readBlockHeader (streamCrc : UInt32) :
    Tells (readBlockHeader streamCrc) fun word phase =>
      phase = .ended ∧ word = Decompressor.endBits streamCrc ∨
      ∃ stored, phase = .field (.blockParams stored) ∧
        word = Bits.ofNat 48 Format.blockMark ++ Bits.ofNat 32 stored.toNat := by
  refine (tells_number 48).bind fun mark front ⟨hfront, _⟩ => ?_
  refine tells_ite (fun hmark => ?_) fun _ => tells_ite (fun hmark => ?_) fun _ => tells_fail _
  · refine tells_checksum.bind fun stored back hback => ?_
    refine tells_ite (fun _ => tells_fail _) fun hstored => tells_pure (.inl ⟨rfl, ?_⟩)
    rw [List.append_nil, hfront, hback, hmark, Decidable.not_not.1 hstored]
    rfl
  · refine tells_checksum.bind fun stored back hback => tells_pure (.inr ⟨stored, rfl, ?_⟩)
    rw [List.append_nil, hfront, hback, hmark]

theorem tells_words (count : Nat) : Tells (words count) fun word bitmaps =>
    bitmaps.length = count ∧ word = bitmaps.flatMap fun bitmap => Bits.ofNat 16 bitmap.toNat := by
  induction count with
  | zero => exact tells_pure ⟨rfl, rfl⟩
  | succ count ih =>
    refine (tells_number 16).bind fun bitmap front ⟨hfront, hlt⟩ => ?_
    refine ih.bind fun bitmaps back ⟨hlength, hback⟩ => tells_pure ⟨congrArg (· + 1) hlength, ?_⟩
    rw [List.append_nil, hfront, hback, List.flatMap_cons, UInt16.toNat_ofNat',
      Nat.mod_eq_of_lt hlt]

theorem tells_unary {tables room : Nat} (hroom : room ≤ tables) :
    Tells (unary tables room) fun word position => ∃ count, count < room ∧
      position = tables - room + count ∧ word = unaryBits count := by
  induction room with
  | zero => exact tells_fail _
  | succ room ih =>
    refine tells_bit.bind fun more front hfront => ?_
    subst hfront
    refine tells_ite (fun hmore => ?_) fun hmore => tells_pure ⟨0, Nat.succ_pos _, rfl, ?_⟩
    · refine (ih (by omega)).mono ?_
      rintro back position ⟨count, hcount, rfl, rfl⟩
      exact ⟨count + 1, by omega, by omega, by rw [hmore]; rfl⟩
    · rw [Bool.not_eq_true] at hmore
      rw [hmore]
      rfl

end Field

/-! ## Blocks whose head is not complete -/

/-- Some of the lengths of a table are known. -/
structure LengthText.Begun (t : LengthText) (alphabet : Nat) : Prop where
  start_lt : t.start < 32
  length_steps : t.steps.length < alphabet
  wrapped_mem : ∀ length ∈ t.lengths,
    1 ≤ LengthText.wrapped length ∧ LengthText.wrapped length ≤ Format.maxCodeLength

namespace BlockText

/-- What a block begins with. -/
def paramBits (head : Head) : List Bool :=
  Bits.ofNat 48 Format.blockMark ++ Bits.ofNat 32 head.stored.toNat ++ [head.randomised] ++
    Bits.ofNat 24 head.pointer

/-- The fields before the selectors, for a number of tables. -/
def openingBits (b : BlockText) (tables : Nat) : List Bool :=
  paramBits ⟨b.stored, b.randomised, b.pointer⟩ ++ Bits.ofNat 16 b.groups.toNat ++
    (b.bitmaps.flatMap fun bitmap => Bits.ofNat 16 bitmap.toNat) ++ Bits.ofNat 3 tables

/-- The fields up to the last selector so far, for a number of selectors. -/
def selectorBits (b : BlockText) (tables count : Nat) : List Bool :=
  b.openingBits tables ++ Bits.ofNat 15 count ++ b.positions.flatMap Field.unaryBits

/-- The fields up to the last table so far. -/
def tableBits (b : BlockText) (tables : Nat) : List Bool :=
  b.selectorBits tables b.positions.length ++ b.tables.flatMap LengthText.bits

/-- The tables in their first order, before they are known. -/
def firstOrder (tables : Nat) : List UInt8 := (List.range tables).map UInt8.ofNat

/-- The rules for the fields before the selectors, and what a draft takes from them. -/
structure Opened (b : BlockText) (tables : Nat) (draft : Draft) : Prop where
  head_eq : draft.head = ⟨b.stored, b.randomised, b.pointer⟩
  used_eq : draft.used = b.used
  tables_eq : draft.setup.tables = tables
  alphabet_eq : draft.setup.alphabet = b.alphabet
  symbols_eq : b.symbols = []
  length_bitmaps : b.bitmaps.length = (UsedMap.flagged b.groups).length
  used_ne_nil : b.used ≠ []
  tables_ge : Format.minTables ≤ tables
  tables_le : tables ≤ Format.maxTables

/-- Some of the selectors are known. -/
structure Selected (b : BlockText) (tables count : Nat) (draft : Draft) : Prop
    extends b.Opened tables draft where
  no_tables : b.tables = []
  count_le : count ≤ Format.maxSelectors
  positions_lt : ∀ position ∈ b.positions, position < tables
  selecting : draft.setup.Selecting
    ((MoveToFront.decode (firstOrder tables) b.positions).map UInt8.toNat)
    (count - b.positions.length) (b.positions.foldl MoveToFront.turn (firstOrder tables))
  filled : draft.setup.Filled []

/-- All selectors and some of the tables are known. -/
structure Measured (b : BlockText) (tables : Nat) (draft : Draft) : Prop
    extends b.Opened tables draft where
  tables_lt : b.tables.length < tables
  selectors_ge : 1 ≤ b.positions.length
  selectors_le : b.positions.length ≤ Format.maxSelectors
  positions_lt : ∀ position ∈ b.positions, position < tables
  selectors_eq : draft.setup.selectors =
    ((MoveToFront.decode (firstOrder tables) b.positions).map UInt8.toNat).toArray
  tables_readable : ∀ t ∈ b.tables, ReadableTable b.alphabet t

end BlockText

/-- What has been read of a block, which leads to this place in it. -/
def Phase.Begun (blockSize : Nat) (begun : List Bool) : Phase → Prop
  | .field .blockHeader => begun = []
  | .field (.blockParams stored) =>
    begun = Bits.ofNat 48 Format.blockMark ++ Bits.ofNat 32 stored.toNat
  | .field (.usedGroups head) => begun = BlockText.paramBits head
  | .field (.usedBitmaps head groups) =>
    begun = BlockText.paramBits head ++ Bits.ofNat 16 groups.toNat
  | .field (.selectorCount draft) => ∃ (b : BlockText) (tables : Nat), b.Opened tables draft ∧
    b.positions = [] ∧ b.tables = [] ∧ draft.setup = Setup.start tables b.alphabet ∧
      begun = b.openingBits tables
  | .field (.selector draft index) => ∃ (b : BlockText) (tables count : Nat),
    b.Selected tables count draft ∧ b.positions.length = index ∧ index < count ∧
      begun = b.selectorBits tables count
  | .field (.codeLength draft ⟨table, none⟩) => ∃ (b : BlockText) (tables : Nat),
    b.Measured tables draft ∧ draft.setup.Filled (b.tables.map LengthText.stored) ∧
      table = b.tables.length ∧ begun = b.tableBits tables
  | .field (.codeLength draft ⟨table, some ⟨length, symbol, altering⟩⟩) =>
    ∃ (b : BlockText) (tables : Nat) (t : LengthText) (now : List Bool),
      b.Measured tables draft ∧ t.Begun b.alphabet ∧
      draft.setup.Filled (b.tables.map LengthText.stored ++ [t.stored]) ∧
      table = b.tables.length ∧ symbol = t.steps.length ∧
      length = Int32.ofInt (LengthText.stepped t.start (t.steps.flatten ++ now)) ∧
      begun = b.tableBits tables ++
        (t.bits ++ ((now.flatMap fun down => [true, down]) ++ if altering then [true] else []))
  | .payload p => ∃ b : BlockText, b.Served blockSize p ∧ begun = b.wordBits
  | _ => False

variable {blockSize : Nat} {streamCrc : UInt32} {begun : List Bool}

/-! ## The fields before the selectors -/

namespace Field

theorem tells_readBlockParams (stored : UInt32) :
    Tells (readBlockParams stored) fun word phase => phase.Begun blockSize
      (Bits.ofNat 48 Format.blockMark ++ Bits.ofNat 32 stored.toNat ++ word) := by
  refine tells_bit.bind fun randomised front hfront => ?_
  refine (tells_number 24).bind fun pointer back ⟨hback, _⟩ => tells_pure ?_
  show _ = BlockText.paramBits ⟨stored, randomised, pointer⟩
  rw [hfront, hback, List.append_nil, ← List.append_assoc]
  rfl

theorem tells_readUsedGroups (head : Head) :
    Tells (readUsedGroups head) fun word phase =>
      phase.Begun blockSize (BlockText.paramBits head ++ word) := by
  refine (tells_number 16).bind fun groups front ⟨hfront, hlt⟩ => tells_pure ?_
  show _ = BlockText.paramBits head ++ Bits.ofNat 16 (UInt16.ofNat groups).toNat
  rw [UInt16.toNat_ofNat', Nat.mod_eq_of_lt hlt, hfront, List.append_nil]

/-- The bitmaps of the used groups, no more and no less, name the bytes of the block. -/
theorem tells_readUsedBitmaps_draft (head : Head) (groups : UInt16) :
    Tells (readUsedBitmaps head groups) fun word phase => ∃ bitmaps tables,
      bitmaps.length = (UsedMap.flagged groups).length ∧ UsedMap.decode groups bitmaps ≠ [] ∧
        Format.minTables ≤ tables ∧ tables ≤ Format.maxTables ∧
        word = (bitmaps.flatMap fun bitmap => Bits.ofNat 16 bitmap.toNat) ++ Bits.ofNat 3 tables ∧
        phase = .field (.selectorCount ⟨head, UsedMap.decode groups bitmaps,
          Setup.start tables ((UsedMap.decode groups bitmaps).length + 2)⟩) := by
  refine (tells_words _).bind fun bitmaps front ⟨hlength, hfront⟩ => ?_
  refine (tells_number 3).bind fun tables back ⟨hback, _⟩ => ?_
  refine tells_ite (fun _ => tells_fail _) fun htables => ?_
  refine tells_ite (fun _ => tells_fail _) fun halphabet => tells_pure ?_
  have hne : UsedMap.decode groups bitmaps ≠ [] := by
    intro hnil
    rw [hnil] at halphabet
    exact halphabet (.inl (by decide))
  exact ⟨bitmaps, tables, hlength, hne, by omega, by omega,
    by rw [hfront, hback, List.append_nil], rfl⟩

theorem tells_readUsedBitmaps (head : Head) (groups : UInt16) :
    Tells (readUsedBitmaps head groups) fun word phase => phase.Begun blockSize
      (BlockText.paramBits head ++ Bits.ofNat 16 groups.toNat ++ word) := by
  refine (tells_readUsedBitmaps_draft head groups).mono ?_
  rintro word phase ⟨bitmaps, tables, hlength, hne, hge, hle, rfl, rfl⟩
  refine ⟨⟨head.stored, head.randomised, head.pointer, groups, bitmaps, [], [], []⟩, tables,
    ⟨rfl, rfl, rfl, rfl, rfl, hlength, hne, hge, hle⟩, rfl, rfl, rfl, ?_⟩
  rw [BlockText.openingBits, List.append_assoc, List.append_assoc, List.append_assoc]

theorem tells_readSelectorCount {draft : Draft}
    (h : (Phase.field (.selectorCount draft)).Begun blockSize begun) :
    Tells (readSelectorCount draft) fun word phase => phase.Begun blockSize (begun ++ word) := by
  obtain ⟨b, tables, hopened, hpositions, htables, hsetup, rfl⟩ := h
  refine (tells_number 15).bind fun count front ⟨hfront, _⟩ => ?_
  refine tells_ite (fun _ => tells_fail _) fun hcount => tells_pure ?_
  refine ⟨b, tables, count, ⟨?_, htables, by omega, ?_, ?_, ?_⟩, ?_, by omega, ?_⟩
  · exact { hopened with }
  · rw [hpositions]
    exact fun position h => by cases h
  · have hle : tables ≤ 256 := Nat.le_trans hopened.tables_le (by decide)
    rw [hsetup, hpositions]
    exact Setup.selecting_start b.alphabet count hle
  · rw [hsetup]
    exact Setup.filled_start tables b.alphabet
  · rw [hpositions]
    rfl
  · rw [BlockText.selectorBits, hpositions, hfront, List.append_nil, List.flatMap_nil,
      List.append_nil]

end Field

/-! ## Selectors -/

namespace BlockText

variable {b : BlockText} {tables count position : Nat} {head : Head} {used : List UInt8}
variable {setup : Setup}

def pushPosition (b : BlockText) (position : Nat) : BlockText :=
  { b with positions := b.positions ++ [position] }

theorem selectorBits_pushPosition (b : BlockText) (tables count position : Nat) :
    (b.pushPosition position).selectorBits tables count =
      b.selectorBits tables count ++ Field.unaryBits position := by
  rw [selectorBits, selectorBits, pushPosition, List.flatMap_append, List.flatMap_singleton,
    ← List.append_assoc]
  rfl

theorem Selected.push (h : b.Selected tables count ⟨head, used, setup⟩)
    (hposition : position < tables) (hcount : b.positions.length < count) :
    ∃ after, setup.setSelector b.positions.length position = .ok after ∧
      (b.pushPosition position).Selected tables count ⟨head, used, after⟩ := by
  have hlength : (firstOrder tables).length = tables := by simp [firstOrder]
  have horder := MoveToFront.length_foldl_turn (firstOrder tables) b.positions
  have hpositions : ∀ other ∈ b.positions, other < (firstOrder tables).length := by
    rw [hlength]
    exact h.positions_lt
  have htable := List.getElem?_eq_getElem (show position <
    (b.positions.foldl MoveToFront.turn (firstOrder tables)).length by omega)
  have hselecting := h.selecting
  rw [show count - b.positions.length = count - (b.positions.length + 1) + 1 by omega] at hselecting
  obtain ⟨after, hset, hnext, htables, halphabet, hlengths⟩ := hselecting.setSelector htable
  rw [List.length_map, MoveToFront.length_decode hpositions] at hset
  refine ⟨after, hset, ⟨h.head_eq, h.used_eq, htables.trans h.tables_eq,
    halphabet.trans h.alphabet_eq, h.symbols_eq, h.length_bitmaps, h.used_ne_nil, h.tables_ge,
    h.tables_le⟩, h.no_tables, h.count_le, fun other hother => ?_, ?_, h.filled.congr hlengths⟩
  · rcases List.mem_append.1 hother with hother | hother
    · exact h.positions_lt other hother
    · rwa [List.mem_singleton.1 hother]
  · rw [pushPosition, MoveToFront.decode_append hpositions, MoveToFront.decode, htable,
      List.foldl_append, List.foldl_cons, List.foldl_nil, MoveToFront.turn_of_getElem? htable,
      List.map_append, List.length_append]
    exact hnext

theorem Selected.measured {draft : Draft} (h : b.Selected tables b.positions.length draft)
    (hpos : 1 ≤ b.positions.length) : b.Measured tables draft := by
  refine { h with
    tables_lt := ?_, selectors_ge := hpos, selectors_le := h.count_le, selectors_eq := ?_,
    tables_readable := ?_ }
  · rw [h.no_tables]
    exact Nat.lt_of_lt_of_le (by decide) h.tables_ge
  · have hselectors := h.selecting.selectors
    rw [Nat.sub_self, List.replicate_zero, List.append_nil] at hselectors
    rw [← hselectors, Array.toArray_toList]
  · rw [h.no_tables]
    exact fun t ht => by cases ht

end BlockText

theorem Field.tells_readSelector {draft : Draft} {index : Nat}
    (h : (Phase.field (.selector draft index)).Begun blockSize begun) :
    Tells (readSelector draft index) fun word phase => phase.Begun blockSize (begun ++ word) := by
  obtain ⟨b, tables, count, hselected, rfl, hindex, rfl⟩ := h
  obtain ⟨head, used, setup⟩ := draft
  refine (tells_unary (Nat.le_refl _)).bind fun position front ⟨other, hlt, hother, hfront⟩ => ?_
  obtain rfl : position = other := by omega
  have hset : Tells (Scan.ofExcept (setup.setSelector b.positions.length position))
      fun word after => word = [] ∧ setup.setSelector b.positions.length position = .ok after :=
    tells_ofExcept fun after hafter => ⟨rfl, hafter⟩
  refine hset.bind fun after back ⟨hback, hafter⟩ => ?_
  subst hfront hback
  rw [hselected.tables_eq] at hlt
  obtain ⟨other, hother, hnext⟩ := hselected.push hlt hindex
  rw [hafter] at hother
  cases hother
  have hlength : (b.pushPosition position).positions.length = b.positions.length + 1 :=
    List.length_append
  have hpositions : ∀ other ∈ (b.pushPosition position).positions,
      other < (BlockText.firstOrder tables).length := by
    simpa [BlockText.firstOrder] using hnext.positions_lt
  have hsize := hnext.selecting.size_selectors
  rw [List.length_map, MoveToFront.length_decode hpositions] at hsize
  simp only at hsize
  refine tells_ite (fun hmore => tells_pure ?_) fun hmore => tells_pure ?_
  · refine ⟨b.pushPosition position, tables, count, hnext, hlength, by omega, ?_⟩
    rw [List.append_nil, List.append_nil, BlockText.selectorBits_pushPosition]
  · obtain rfl : count = (b.pushPosition position).positions.length := by omega
    have htables : (b.pushPosition position).tables = [] := hnext.no_tables
    refine ⟨b.pushPosition position, tables, hnext.measured (by omega), ?_, ?_, ?_⟩
    · rw [htables]
      exact hnext.filled
    · rw [htables]
      rfl
    · rw [List.append_nil, List.append_nil, BlockText.tableBits, htables, List.flatMap_nil,
        List.append_nil, BlockText.selectorBits_pushPosition]

/-! ## Code lengths -/

namespace LengthText

def push (t : LengthText) (steps : List Bool) : LengthText := { t with steps := t.steps ++ [steps] }

theorem lengths_push (t : LengthText) (steps : List Bool) :
    (t.push steps).lengths = t.lengths ++ [stepped t.start (t.steps.flatten ++ steps)] := by
  rw [lengths, push, running_append, stepped_append]
  rfl

theorem stored_push (t : LengthText) (steps : List Bool) : (t.push steps).stored =
    t.stored ++ [(wrapped (stepped t.start (t.steps.flatten ++ steps))).toNat] := by
  rw [stored, lengths_push, List.map_append]
  rfl

theorem bits_push (t : LengthText) (steps : List Bool) :
    (t.push steps).bits = t.bits ++ stepBits steps := by
  rw [bits, bits, push, List.flatMap_append, List.flatMap_singleton, List.append_assoc]

end LengthText

namespace BlockText

variable {b : BlockText} {tables : Nat} {head : Head} {used : List UInt8} {draft : Draft}
variable {setup after : Setup} {t : LengthText}

def pushTable (b : BlockText) (t : LengthText) : BlockText := { b with tables := b.tables ++ [t] }

theorem tableBits_pushTable (b : BlockText) (tables : Nat) (t : LengthText) :
    (b.pushTable t).tableBits tables = b.tableBits tables ++ t.bits := by
  rw [tableBits, tableBits, pushTable, List.flatMap_append, List.flatMap_singleton,
    ← List.append_assoc]
  rfl

theorem Measured.congr (h : b.Measured tables ⟨head, used, setup⟩)
    (htables : after.tables = setup.tables) (halphabet : after.alphabet = setup.alphabet)
    (hselectors : after.selectors = setup.selectors) : b.Measured tables ⟨head, used, after⟩ :=
  { h with
    tables_eq := htables.trans h.tables_eq
    alphabet_eq := halphabet.trans h.alphabet_eq
    selectors_eq := hselectors.trans h.selectors_eq }

theorem Measured.mem_pushTable (h : b.Measured tables draft) (ht : ReadableTable b.alphabet t) :
    ∀ other ∈ (b.pushTable t).tables, ReadableTable (b.pushTable t).alphabet other := by
  intro other hother
  rcases List.mem_append.1 hother with hother | hother
  · exact h.tables_readable other hother
  · rw [List.mem_singleton.1 hother]
    exact ht

theorem Measured.push (h : b.Measured tables draft) (ht : ReadableTable b.alphabet t)
    (hmore : b.tables.length + 1 < tables) : (b.pushTable t).Measured tables draft :=
  { h with
    tables_lt := by
      rw [pushTable, List.length_append]
      exact hmore
    tables_readable := h.mem_pushTable ht }

/-- With the last table the payload begins. -/
theorem Measured.served {decoder : Decoder} (h : b.Measured tables draft)
    (ht : ReadableTable b.alphabet t) (hlast : b.tables.length + 1 = tables)
    (hfilled : draft.setup.Filled ((b.pushTable t).tables.map LengthText.stored))
    (hdecoder : draft.setup.decoder = .ok decoder) :
    (b.pushTable t).Served blockSize (Payload.start blockSize draft.head draft.used decoder) ∧
      (b.pushTable t).wordBits = (b.pushTable t).tableBits tables := by
  have hlength : (b.pushTable t).tables.length = tables := by
    rw [pushTable, List.length_append]
    exact hlast
  have hused := UsedMap.length_decode_le b.groups b.bitmaps
  have hreadable := h.mem_pushTable ht
  have hhead : (b.pushTable t).HeadReadable := ⟨h.length_bitmaps, h.used_ne_nil,
    hlength ▸ h.tables_ge, hlength ▸ h.tables_le, h.selectors_ge, h.selectors_le,
    hlength ▸ h.positions_lt, hreadable⟩
  have hsymbols : (b.pushTable t).symbols = [] := h.symbols_eq
  have halphabet : draft.setup.alphabet ≤ Format.maxAlphabet := by
    rw [h.alphabet_eq]
    exact Nat.add_le_add_right hused 2
  -- the tables are built from the lengths that were stored, so the decoder is that of the text
  rw [hfilled.decoder_eq (by rw [List.length_map, hlength, h.tables_eq])
    (by rw [List.length_map, hlength]; exact h.tables_le) halphabet (by
      intro lengths hlengths
      obtain ⟨other, hother, rfl⟩ := List.mem_map.1 hlengths
      rw [LengthText.length_stored, (hreadable other hother).length_steps, h.alphabet_eq]
      rfl)] at hdecoder
  cases hdecoder
  refine ⟨⟨⟨hhead, ?_, ?_⟩, h.head_eq, ?_, rfl, ?_, ?_, ?_, ?_⟩, ?_⟩
  · rw [hsymbols]
    exact Nat.zero_le _
  · rw [hsymbols]
    exact fun symbol index hmem => by cases hmem
  · rw [tableLengths_straight, hsymbols, h.selectors_eq, selectors, hlength]
    rfl
  · rw [Payload.start, h.used_eq]
    rfl
  · rw [hsymbols]
    exact fun symbol hmem => by cases hmem
  · exact Nat.zero_le _
  · refine ⟨b.used, ?_, fun rest => ?_⟩
    · rw [Payload.start, h.used_eq]
      exact Expansion.holds_start blockSize h.used_ne_nil hused
    · rw [hsymbols, List.map_nil, List.nil_append]
      rfl
  · rw [wordBits, payloadBits]
    show _ ++ ((b.pushTable t).symbols.zipIdx.flatMap _) = _
    rw [hsymbols, List.zipIdx_nil, List.flatMap_nil, List.append_nil, tableBits, selectorBits,
      ← hlength]
    rfl

end BlockText

namespace Field

open LengthText

variable {b : BlockText} {tables : Nat} {draft : Draft} {t : LengthText} {now : List Bool}

/-- Behind a length of the text come the next length, the next table, or the payload. -/
theorem begun_afterLength {symbol : Nat} {length : Int32} {phase : Phase}
    (h : b.Measured tables draft) (hstart : t.start < 32)
    (hlengths : ∀ length ∈ t.lengths, 1 ≤ wrapped length ∧ wrapped length ≤ Format.maxCodeLength)
    (hsteps : t.steps.length = symbol + 1) (hle : t.steps.length ≤ b.alphabet)
    (hfilled : draft.setup.Filled (b.tables.map LengthText.stored ++ [t.stored]))
    (hlength : length = Int32.ofInt (stepped t.start t.steps.flatten))
    (hphase : afterLength blockSize draft b.tables.length symbol length = .ok phase) :
    phase.Begun blockSize (b.tableBits tables ++ t.bits) := by
  have halphabet := h.alphabet_eq
  have htotal := h.tables_eq
  have htables_lt := h.tables_lt
  by_cases hmore : symbol + 1 < draft.setup.alphabet
  · rw [afterLength_of_lt draft hmore] at hphase
    cases hphase
    refine ⟨b, tables, t, [], h, ⟨hstart, by omega, hlengths⟩, hfilled, rfl, hsteps.symm, ?_, ?_⟩
    · rw [List.append_nil]
      exact hlength
    · simp
  have hreadable : BlockText.ReadableTable b.alphabet t := ⟨hstart, by omega, hlengths⟩
  have hknown : draft.setup.Filled ((b.pushTable t).tables.map LengthText.stored) := by
    rw [BlockText.pushTable, List.map_append]
    exact hfilled
  rw [afterLength_last (by omega), afterTable] at hphase
  split at hphase
  · rename_i htables
    cases hphase
    refine ⟨b.pushTable t, tables, h.push hreadable (htotal ▸ htables), hknown, ?_, ?_⟩
    · rw [BlockText.pushTable, List.length_append]
      rfl
    · rw [BlockText.tableBits_pushTable]
  cases hdecoder : draft.setup.decoder with
  | error fault =>
    rw [hdecoder] at hphase
    cases hphase
  | ok decoder =>
    rw [hdecoder] at hphase
    cases hphase
    obtain ⟨hserved, hbits⟩ := h.served hreadable (by omega) hknown hdecoder
    exact ⟨_, hserved, by rw [hbits, BlockText.tableBits_pushTable]⟩

theorem begun_storeLength {phase : Phase} (h : b.Measured tables draft) (ht : t.Begun b.alphabet)
    (hfilled : draft.setup.Filled (b.tables.map LengthText.stored ++ [t.stored]))
    (hstore : storeLength blockSize draft b.tables.length t.steps.length
      (Int32.ofInt (stepped t.start (t.steps.flatten ++ now))) = .ok phase) :
    phase.Begun blockSize (b.tableBits tables ++ (t.bits ++ stepBits now)) := by
  obtain ⟨head, used, setup⟩ := draft
  have hused := UsedMap.length_decode_le b.groups b.bitmaps
  have halphabet : b.alphabet ≤ Format.maxAlphabet := Nat.add_le_add_right hused 2
  cases hset : setup.setLength b.tables.length t.steps.length
      (Int32.ofInt (stepped t.start (t.steps.flatten ++ now))) with
  | error fault =>
    rw [storeLength, hset] at hstore
    cases hstore
  | ok after =>
  rw [storeLength, hset] at hstore
  have hbounds := Setup.bounds_of_setLength hset
  obtain ⟨other, hother, hnext, hatables, haalphabet, haselectors⟩ := hfilled.setLength
    (by rw [List.length_map]; exact Nat.lt_of_lt_of_le h.tables_lt h.tables_le)
    (by rw [length_stored]; exact Nat.lt_of_lt_of_le ht.length_steps halphabet) hbounds
  rw [List.length_map, length_stored, hset] at hother
  cases hother
  rw [← wrapped, ← stored_push] at hnext
  have hsteps : (t.push now).steps.length = t.steps.length + 1 := List.length_append
  rw [← bits_push]
  refine begun_afterLength (h.congr hatables haalphabet haselectors) ht.start_lt ?_ hsteps
    (hsteps ▸ ht.length_steps) hnext ?_ hstore
  · intro length hlength
    rw [lengths_push] at hlength
    rcases List.mem_append.1 hlength with hlength | hlength
    · exact ht.wrapped_mem length hlength
    · rw [List.mem_singleton.1 hlength]
      exact hbounds
  · rw [push, List.flatten_append, List.flatten_singleton]

theorem tells_readCodeLength {cursor : LengthCursor}
    (h : (Phase.field (.codeLength draft cursor)).Begun blockSize begun) :
    Tells (readCodeLength blockSize draft cursor) fun word phase =>
      phase.Begun blockSize (begun ++ word) := by
  obtain ⟨table, running⟩ := cursor
  match running with
  | none =>
    obtain ⟨b, tables, hmeasured, hfilled, rfl, rfl⟩ := h
    refine (tells_number 5).bind fun length front ⟨hfront, hlt⟩ => tells_pure ?_
    have hpos : 0 < b.alphabet := Nat.succ_pos _
    refine ⟨b, tables, ⟨length, []⟩, [], hmeasured, ⟨hlt, hpos, fun l hl => by cases hl⟩,
      hfilled.append_nil, rfl, rfl, ?_, ?_⟩
    · exact Int32.ofInt_eq_ofNat.symm
    · rw [hfront, List.append_nil]
      simp [LengthText.bits]
  | some ⟨length, symbol, true⟩ =>
    obtain ⟨b, tables, t, now, hmeasured, ht, hfilled, rfl, rfl, rfl, rfl⟩ := h
    refine tells_bit.bind fun down front hfront => tells_pure ?_
    refine ⟨b, tables, t, now ++ [down], hmeasured, ht, hfilled, rfl, rfl, ?_, ?_⟩
    · rw [← List.append_assoc, stepped_append _ _ [down]]
      cases down with
      | true => exact (Int32.ofInt_sub _ 1).symm
      | false => exact (Int32.ofInt_add _ 1).symm
    · simp [hfront, List.append_assoc]
  | some ⟨length, symbol, false⟩ =>
    obtain ⟨b, tables, t, now, hmeasured, ht, hfilled, rfl, rfl, rfl, rfl⟩ := h
    refine tells_bit.bind fun more front hfront => ?_
    subst hfront
    refine tells_ite (fun hmore => tells_pure ?_) fun hmore => tells_ofExcept fun phase hphase => ?_
    · exact ⟨b, tables, t, now, hmeasured, ht, hfilled, rfl, rfl, rfl, by simp [hmore]⟩
    · have hbegun := begun_storeLength hmeasured ht hfilled hphase
      simp only [Bool.not_eq_true] at hmore
      simpa [hmore, stepBits] using hbegun

/-! ## One field -/

/-- A field that is read goes on with the block, or ends the stream. -/
theorem tells_read {field : Field} (h : (Phase.field field).Begun blockSize begun) :
    Tells (field.read blockSize streamCrc) fun word after =>
      after.blockSize = blockSize ∧ after.streamCrc = streamCrc ∧
        (after.phase.Begun blockSize (begun ++ word) ∨
          after.phase = .ended ∧ begun ++ word = Decompressor.endBits streamCrc) := by
  have wrap {scan : Scan Phase} (hscan : Tells scan fun word phase =>
      phase.Begun blockSize (begun ++ word) ∨
        phase = .ended ∧ begun ++ word = Decompressor.endBits streamCrc) :
      Tells (do return ⟨← scan, blockSize, streamCrc⟩ : Scan State) fun word after =>
        after.blockSize = blockSize ∧ after.streamCrc = streamCrc ∧
          (after.phase.Begun blockSize (begun ++ word) ∨
            after.phase = .ended ∧ begun ++ word = Decompressor.endBits streamCrc) :=
    hscan.bind fun phase front hphase => tells_pure ⟨rfl, rfl, by rwa [List.append_nil]⟩
  cases field with
  | streamHeader => cases h
  | blockHeader =>
    obtain rfl : begun = [] := h
    refine wrap ((tells_readBlockHeader streamCrc).mono ?_)
    rintro word phase (⟨rfl, rfl⟩ | ⟨stored, rfl, rfl⟩)
    · exact .inr ⟨rfl, rfl⟩
    · exact .inl rfl
  | blockParams stored =>
    obtain rfl : begun = _ := h
    exact wrap ((tells_readBlockParams stored).mono fun _ _ => .inl)
  | usedGroups head =>
    obtain rfl : begun = _ := h
    exact wrap ((tells_readUsedGroups head).mono fun _ _ => .inl)
  | usedBitmaps head groups =>
    obtain rfl : begun = _ := h
    exact wrap ((tells_readUsedBitmaps head groups).mono fun _ _ => .inl)
  | selectorCount draft => exact wrap ((tells_readSelectorCount h).mono fun _ _ => .inl)
  | selector draft index => exact wrap ((tells_readSelector h).mono fun _ _ => .inl)
  | codeLength draft cursor => exact wrap ((tells_readCodeLength h).mono fun _ _ => .inl)

end Field

end Bunzip.Stream
