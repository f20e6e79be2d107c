import Bunzip.Proofs.Block.Payload
import Bunzip.Proofs.Block.Readout
import Bunzip.Proofs.MoveToFront
import Bunzip.Proofs.Stream.Chunking
import Bunzip.Proofs.Stream.CodeLengths
import Bunzip.Proofs.UsedMap

/-!
# Reading a valid text

A decompressor that is given a readable text gives the data of its blocks and the end of the stream,
whatever follows the text (`StreamText.Readable.drain_wordBits`). The fields of a block lead to its
payload (`BlockText.Readable.runs_head`), the payload to the readout of its column
(`BlockText.Readable.advance_wordBits`), and the readout to the data.
-/

namespace Bunzip.Stream

open Scan Huffman Block

namespace BlockText

variable {b : BlockText} {blockSize : Nat}

/-- The decoder of the first symbol. -/
def decoder (b : BlockText) : Decoder :=
  ⟨(b.tableLengths.map Table.ofLengths).toArray, b.selectors.toArray, 0⟩

def payload (b : BlockText) (blockSize : Nat) : Payload :=
  Payload.start blockSize ⟨b.stored, b.randomised, b.pointer⟩ b.used b.decoder

/-! ## Selectors -/

def tableOrder (b : BlockText) : List UInt8 := (List.range b.tables.length).map UInt8.ofNat

theorem length_tableOrder (b : BlockText) : b.tableOrder.length = b.tables.length := by
  simp [tableOrder]

theorem Valid.length_selectors (h : b.Valid blockSize) :
    b.selectors.length = b.positions.length := by
  rw [selectors, List.length_map]
  refine MoveToFront.length_decode fun position hposition => ?_
  rw [← tableOrder, length_tableOrder]
  exact h.positions_lt position hposition

theorem lt_of_mem_selectors (h : b.tables.length ≤ Format.maxTables) {table : Nat}
    (htable : table ∈ b.selectors) : table < b.tables.length := by
  obtain ⟨byte, hbyte, rfl⟩ := List.mem_map.1 htable
  obtain ⟨i, hi, rfl⟩ := List.mem_map.1 (MoveToFront.mem_of_mem_decode hbyte)
  have hlt := List.mem_range.1 hi
  have hmax : b.tables.length ≤ 6 := h
  rwa [UInt8.toNat_ofNat', Nat.mod_eq_of_lt (show i < 2 ^ 8 by omega)]

/-! ## The head -/

theorem length_bitmapBits (bitmaps : List UInt16) :
    (bitmaps.flatMap fun bitmap => Bits.ofNat 16 bitmap.toNat).length = 16 * bitmaps.length := by
  induction bitmaps with
  | nil => rfl
  | cons bitmap bitmaps ih =>
    rw [List.flatMap_cons, List.length_append, Bits.length_ofNat, ih, List.length_cons]
    omega

/-- The part of the head with a fixed layout. -/
def fieldBits (b : BlockText) : List Bool :=
  Bits.ofNat 48 Format.blockMark ++ Bits.ofNat 32 b.stored.toNat ++ [b.randomised] ++
    Bits.ofNat 24 b.pointer ++ Bits.ofNat 16 b.groups.toNat ++
    (b.bitmaps.flatMap fun bitmap => Bits.ofNat 16 bitmap.toNat) ++
    Bits.ofNat 3 b.tables.length ++ Bits.ofNat 15 b.positions.length

def setup (b : BlockText) : Setup :=
  (Setup.start b.tables.length b.alphabet).setSelectorCount b.positions.length

theorem headBits_eq (b : BlockText) : b.headBits =
    b.fieldBits ++ (b.positions.flatMap Field.unaryBits ++ b.tables.flatMap LengthText.bits) := by
  simp only [headBits, fieldBits, List.append_assoc]

theorem Valid.runs_fields (h : b.Valid blockSize) (hsize : blockSize ≤ 2 ^ 24)
    (streamCrc : UInt32) :
    State.Runs ⟨.field .blockHeader, blockSize, streamCrc⟩ b.fieldBits
      ⟨.field (.selector ⟨⟨b.stored, b.randomised, b.pointer⟩, b.used, b.setup⟩ 0), blockSize,
        streamCrc⟩ := by
  have hpointer : b.pointer < 2 ^ 24 := by
    have := h.pointer_lt_column
    have := h.column_le
    omega
  have hused := UsedMap.length_decode_le b.groups b.bitmaps
  have hbits : b.fieldBits =
      (Bits.ofNat 48 Format.blockMark ++ Bits.ofNat 32 b.stored.toNat) ++
        (([b.randomised] ++ Bits.ofNat 24 b.pointer) ++ (Bits.ofNat 16 b.groups.toNat ++
          (((b.bitmaps.flatMap fun bitmap => Bits.ofNat 16 bitmap.toNat) ++
            Bits.ofNat 3 b.tables.length) ++ Bits.ofNat 15 b.positions.length))) := by
    simp only [fieldBits, List.append_assoc]
  rw [hbits]
  refine State.Runs.trans (Field.runs_phase .blockHeader
    (Field.reads_readBlockHeader streamCrc b.stored) rfl ?_) ?_
  · simp [Field.need]
  refine State.Runs.trans (Field.runs_phase (.blockParams b.stored)
    (Field.reads_readBlockParams b.stored b.randomised hpointer) rfl ?_) ?_
  · simp [Field.need]
  refine State.Runs.trans (Field.runs_phase (.usedGroups ⟨b.stored, b.randomised, b.pointer⟩)
    (Field.reads_readUsedGroups _ b.groups) rfl ?_) ?_
  · simp [Field.need]
  refine State.Runs.trans (Field.runs_phase
    (.usedBitmaps ⟨b.stored, b.randomised, b.pointer⟩ b.groups)
    (Field.reads_readUsedBitmaps _ h.length_bitmaps h.tables_ge h.tables_le h.used_ne_nil hused)
    rfl ?_) ?_
  · rw [List.length_append, length_bitmapBits, h.length_bitmaps, Bits.length_ofNat]
    exact Nat.le_add_right _ _
  refine Field.runs_phase (.selectorCount _)
    (Field.reads_readSelectorCount _ h.selectors_ge h.selectors_le) rfl ?_
  simp [Field.need]

/-- The fields of a block lead to its payload, whatever detours its code lengths make. -/
theorem Readable.runs_head (h : b.Readable blockSize) (hsize : blockSize ≤ 2 ^ 24)
    (streamCrc : UInt32) :
    State.Runs ⟨.field .blockHeader, blockSize, streamCrc⟩ b.headBits
      ⟨.payload (b.straight.payload blockSize), blockSize, streamCrc⟩ := by
  obtain ⟨hreadable, hvalid⟩ := h
  have hlength : b.straight.tables.length = b.tables.length := List.length_map _
  have htables_le := hvalid.tables_le
  have htables_ge := hvalid.tables_ge
  have hpositions_lt := hvalid.positions_lt
  rw [hlength] at htables_le htables_ge hpositions_lt
  have hused := UsedMap.length_decode_le b.groups b.bitmaps
  have htables : b.tables.length ≤ 256 := Nat.le_trans htables_le (by decide)
  have hne : b.tables ≠ [] := by
    intro hnil
    rw [hnil] at htables_ge
    exact absurd htables_ge (by decide)
  have hpositions : b.positions ≠ [] := List.length_pos_iff.1 hvalid.selectors_ge
  obtain ⟨selected, order, hselected, hstables, hsalphabet, hslengths, hselectors⟩ :=
    Field.runs_selectors blockSize streamCrc ⟨b.stored, b.randomised, b.pointer⟩ b.used
      (Setup.selecting_start b.alphabet b.positions.length htables) hpositions hpositions_lt
  have hfilled : selected.Filled [] :=
    (Setup.filled_start b.tables.length b.alphabet).congr hslengths
  have hall : selected.selectors = b.selectors.toArray := by
    apply Array.toList_inj.1
    rw [hselected.selectors]
    simp [selectors]
  have halphabet : b.alphabet = b.used.length + 2 := rfl
  have htotal : selected.tables = b.tables.length := hstables
  have hsymbols : selected.alphabet = b.alphabet := hsalphabet
  have hruns := Field.runs_tables blockSize streamCrc ⟨b.stored, b.randomised, b.pointer⟩ b.used
    hfilled htotal (by rw [htotal]; exact htables_le)
    (by omega) (by rw [hsymbols, halphabet]; exact Nat.add_le_add_right hused 2) hne
    (by rw [hsymbols]; exact hreadable)
  rw [hall, ← tableLengths_straight, ← selectors_straight] at hruns
  have hfields := hvalid.runs_fields hsize streamCrc
  rw [show b.straight.fieldBits = b.fieldBits by simp only [fieldBits, hlength]; rfl,
    setup, hlength] at hfields
  rw [headBits_eq]
  exact hfields.trans (hselectors.trans hruns)

/-! ## The payload -/

theorem Valid.exists_table (h : b.Valid blockSize) {index : Nat} (hindex : index < b.symbols.length) :
    ∃ table t, b.selectors[index / Format.groupSize]? = some table ∧ b.tables[table]? = some t ∧
      b.lengthsAt index = t.lengths.map Int.toNat := by
  have hsuffice := h.selectors_suffice
  have hgroup : index / Format.groupSize < b.selectors.length := by
    rw [h.length_selectors]
    exact Nat.div_lt_of_lt_mul (Nat.lt_of_lt_of_le hindex hsuffice)
  have hselector := List.getElem?_eq_getElem hgroup
  have htable := List.getElem?_eq_getElem
    (lt_of_mem_selectors h.tables_le (List.getElem_mem hgroup))
  refine ⟨_, _, hselector, htable, ?_⟩
  simp only [lengthsAt, List.getD_eq_getElem?_getD, hselector, htable, Option.getD_some]

theorem Valid.serves (h : b.Valid blockSize) : b.decoder.Serves b.symbols b.payloadBits := by
  refine Decoder.serves_words fun symbol index hmem => ?_
  obtain ⟨table, t, hselector, htable, hlengths⟩ := h.exists_table (List.snd_lt_of_mem_zipIdx hmem)
  obtain ⟨word, hword, -⟩ := h.resolves symbol index hmem
  refine ⟨table, word, by simpa using hselector, ?_, hword, ?_⟩
  · rw [List.getElem?_toArray, tableLengths, List.getElem?_map, List.getElem?_map, htable, hlengths]
    rfl
  · have hlength := List.mem_of_getElem? (Canonical.length_of_codeWord? hword)
    rw [hlengths] at hlength
    obtain ⟨length, hmem, heq⟩ := List.mem_map.1 hlength
    have hle := ((h.tables_valid t (List.mem_of_getElem? htable)).lengths_mem length hmem).2
    have hmax : Format.maxCodeLength = 20 := rfl
    have hsearch : Format.maxSearch = 23 := rfl
    omega

theorem Valid.symbol_lt (h : b.Valid blockSize) {symbol : Nat} (hsymbol : symbol ∈ b.symbols) :
    symbol < b.alphabet := by
  obtain ⟨index, hindex, heq⟩ := List.mem_iff_getElem.1 hsymbol
  have hmem : (symbol, index) ∈ b.symbols.zipIdx := by
    rw [List.mk_mem_zipIdx_iff_getElem?, ← heq]
    exact List.getElem?_eq_getElem hindex
  obtain ⟨table, t, -, htable, hlengths⟩ := h.exists_table hindex
  obtain ⟨word, hword, -⟩ := h.resolves symbol index hmem
  have hlt := (List.getElem?_eq_some_iff.1 (Canonical.length_of_codeWord? hword)).1
  have hsteps := (h.tables_valid t (List.mem_of_getElem? htable)).length_steps
  rwa [hlengths, List.length_map, LengthText.lengths, LengthText.length_running, hsteps] at hlt

theorem Valid.run_payload (h : b.Valid blockSize) (hsize : blockSize ≤ 2 ^ 24) {r : BitReader}
    {rest : List Bool} (hbits : r.bits = b.payloadBits ++ rest)
    (hrest : Format.maxSearch ≤ rest.length) :
    ∃ walk last next, (b.payload blockSize).run r =
        .ok (some (Readout.start walk b.randomised b.stored)) (last, next) ∧
      walk.Gives (Rotations.unsort b.column b.pointer) ∧ next.bits = rest := by
  have hused := UsedMap.length_decode_le b.groups b.bitmaps
  obtain ⟨front, hsymbols, hfront⟩ := h.ends
  have hserves := h.serves
  rw [hsymbols] at hserves
  have hcolumn : Token.expandFrom b.used 0 1
      ((front ++ [b.used.length + 1]).map (Token.ofSymbol b.used.length)) = b.column := by
    rw [Token.expandFrom_eq_expand, ← hsymbols]
    rfl
  refine Payload.run_symbols (Expansion.holds_start blockSize h.used_ne_nil hused) hused hserves
    ?_ hcolumn h.column_le (Nat.le_trans h.column_le hsize) h.pointer_lt_column hbits hrest
  intro symbol hsymbol
  have hlt := h.symbol_lt (hsymbols ▸ List.mem_append_left _ hsymbol)
  have hne : symbol ≠ b.used.length + 1 := fun heq => hfront (heq ▸ hsymbol)
  have halphabet : b.alphabet = b.used.length + 2 := rfl
  have hlength : (Expansion.start blockSize b.used).used.size = b.used.length := rfl
  omega

/-- A block is read, and its column is read out. -/
theorem Readable.advance_wordBits (h : b.Readable blockSize) (hsize : blockSize ≤ 2 ^ 24)
    (streamCrc : UInt32) {r : BitReader} {rest : List Bool} (hbits : r.bits = b.wordBits ++ rest)
    (hrest : Format.maxSearch ≤ rest.length) :
    ∃ walk next, next.bits = rest ∧ walk.Gives (Rotations.unsort b.column b.pointer) ∧
      State.advance ⟨.field .blockHeader, blockSize, streamCrc⟩ r =
        ⟨⟨.field .blockHeader, blockSize, streamCrc⟩, next,
          .complete (Readout.start walk b.randomised b.stored)⟩ := by
  rw [wordBits, List.append_assoc] at hbits
  obtain ⟨mid, hmid, hadvance⟩ := h.runs_head hsize streamCrc r _ hbits (by
    rw [List.length_append]
    exact Nat.le_add_left_of_le hrest)
  obtain ⟨walk, last, next, hrun, hgives, hnext⟩ := h.straight_valid.run_payload hsize hmid hrest
  refine ⟨walk, if next.used = mid.used ∧ next.remaining ≠ 0 then next.refill else next, ?_, hgives,
    ?_⟩
  · split
    · rw [BitReader.bits_refill, hnext]
    · exact hnext
  · rw [hadvance, State.advance, State.readPayload]
    simp only [hrun]
    rfl

end BlockText

/-! ## Calls -/

namespace Decompressor

variable {d : Decompressor} {chunk : List UInt8} {b : BlockText} {blockSize : Nat}
variable {streamCrc : UInt32} {word rest : List Bool}

/-- A call that comes to a readable block gives its data. -/
theorem decompress_of_readable (h : b.Readable blockSize) (hsize : blockSize ≤ 2 ^ 24)
    (hopen : d.state.phase ≠ .closed)
    (hruns : d.state.Runs word ⟨.field .blockHeader, blockSize, streamCrc⟩)
    (hunread : d.unread chunk = word ++ (b.wordBits ++ rest))
    (hrest : Format.maxSearch ≤ rest.length) :
    (d.decompress chunk).result = .ok (.block b.data.toArray) ∧
      (d.decompress chunk).next.state =
        ⟨.field .blockHeader, blockSize, Crc.fold streamCrc b.stored⟩ ∧
      (d.decompress chunk).unread = rest := by
  obtain ⟨mid, hmid, hfirst⟩ := hruns (BitReader.bind d.bits chunk) _ hunread (by
    rw [List.length_append]
    exact Nat.le_add_left_of_le hrest)
  obtain ⟨walk, next, hnext, hgives, hsecond⟩ := h.advance_wordBits hsize streamCrc hmid hrest
  obtain ⟨data, after, hdrain, hdata, hcrc, hstored⟩ :=
    Readout.drain_start hgives b.randomised b.stored
  have hblock : data.toList = b.data := hdata
  have hvalue : after.crc.value = b.stored := by
    rw [hcrc, hblock]
    exact h.straight_valid.stored_eq.symm
  have hcheck : after.checkCrc = .ok b.stored := by
    rw [Readout.checkCrc, if_pos (hvalue.trans hstored.symm), hvalue]
  rw [decompress_eq_settle hopen, hfirst, hsecond, settle, deliver]
  simp only [hdrain, hcheck]
  refine ⟨?_, trivial, ?_⟩
  · rw [← hblock, Array.toArray_toList]
  · exact (unread_release _ next).trans hnext

def endBits (checksum : UInt32) : List Bool :=
  Bits.ofNat 48 Format.endMark ++ Bits.ofNat 32 checksum.toNat

theorem length_endBits (checksum : UInt32) : (endBits checksum).length = 80 := by
  rw [endBits, List.length_append, Bits.length_ofNat, Bits.length_ofNat]

theorem decompress_end (hopen : d.state.phase ≠ .closed)
    (hruns : d.state.Runs word ⟨.field .blockHeader, blockSize, streamCrc⟩)
    (hunread : d.unread chunk = word ++ (endBits streamCrc ++ rest)) :
    (d.decompress chunk).result = .ok .endOfStream ∧ (d.decompress chunk).unread = rest := by
  have hlength := length_endBits streamCrc
  obtain ⟨mid, hmid, hfirst⟩ := hruns (BitReader.bind d.bits chunk) _ hunread (by
    rw [List.length_append, hlength]
    exact Nat.le_trans (by decide) (Nat.le_add_right 80 _))
  have hread : Reads (Field.blockHeader.read blockSize streamCrc) (endBits streamCrc)
      ⟨.ended, blockSize, streamCrc⟩ :=
    (Field.reads_readBlockHeader_end streamCrc).first (reads_pure _)
  obtain ⟨next, hnext, hsecond⟩ := State.advance_field hread hmid (by
    rw [hmid, List.length_append, hlength]
    exact Nat.le_add_right 80 _)
  rw [decompress_eq_settle hopen, hfirst, hsecond, State.advance, settle]
  exact ⟨rfl, (unread_release _ next).trans hnext⟩

/-- The data of the blocks that come, and then the end of the stream; what is behind it is left. -/
theorem drain_blocks {blocks : List BlockText} (h : ∀ b ∈ blocks, b.Readable blockSize)
    (hsize : blockSize ≤ 2 ^ 24) (hopen : d.state.phase ≠ .closed)
    (hruns : d.state.Runs word ⟨.field .blockHeader, blockSize, streamCrc⟩)
    (hunread : d.unread chunk = word ++ (blocks.flatMap BlockText.wordBits ++
      (endBits ((blocks.map (·.stored)).foldl Crc.fold streamCrc) ++ rest))) :
    (d.drain chunk).map (·.result) =
        (blocks.map fun b => .ok (.block b.data.toArray)) ++ [.ok .endOfStream] ∧
      ∃ last, (d.drain chunk).getLast? = some last ∧ last.unread = rest := by
  induction blocks generalizing d chunk word streamCrc with
  | nil =>
    obtain ⟨hend, hleft⟩ := decompress_end hopen hruns hunread
    rw [drain_of_not_block (by simp [hend]), List.map_singleton, hend]
    exact ⟨rfl, _, rfl, hleft⟩
  | cons b blocks ih =>
    rw [List.flatMap_cons, List.append_assoc, List.map_cons, List.foldl_cons] at hunread
    obtain ⟨hresult, hstate, hleft⟩ := decompress_of_readable (h b List.mem_cons_self) hsize hopen
      hruns hunread (by
        rw [List.length_append, List.length_append, length_endBits]
        exact Nat.le_trans (show Format.maxSearch ≤ 80 by decide) (by omega))
    have hnext : (d.decompress chunk).next.state.Runs []
        ⟨.field .blockHeader, blockSize, Crc.fold streamCrc b.stored⟩ := by
      rw [hstate]
      exact State.runs_nil _
    obtain ⟨hresults, last, hlast, hrest⟩ :=
      ih (fun other hother => h other (List.mem_cons_of_mem _ hother)) (by simp [hstate]) hnext hleft
    rw [drain_of_block hresult, List.map_cons, hresult, List.map_cons, List.cons_append, hresults]
    refine ⟨rfl, last, ?_, hrest⟩
    rw [List.getLast?_cons, hlast]
    rfl

end Decompressor

/-! ## Streams -/

namespace StreamText

/-- A readable text gives its data, and leaves what follows it. -/
theorem Readable.drain_wordBits {t : StreamText} (h : t.Readable) {data : List UInt8}
    {rest : List Bool} (hdata : Bits.ofBytes data = t.wordBits ++ rest) :
    (Decompressor.start.drain data).map (·.result) =
        (t.blocks.map fun b => .ok (.block b.data.toArray)) ++ [.ok .endOfStream] ∧
      ∃ last, (Decompressor.start.drain data).getLast? = some last ∧ last.unread = rest := by
  have hsize := h.blockSize_le
  have hread : Reads (Field.streamHeader.read 0 0)
      (Bits.ofNat 24 Format.signature ++ Bits.ofNat 8 (0x30 + t.digit))
      ⟨.field .blockHeader, t.blockSize, 0⟩ :=
    Field.reads_readStreamHeader h.digit_ge h.digit_le
  have hunread : Decompressor.start.unread data =
      (Bits.ofNat 24 Format.signature ++ Bits.ofNat 8 (0x30 + t.digit)) ++
        (t.blocks.flatMap BlockText.wordBits ++ (Decompressor.endBits t.checksum ++ rest)) := by
    show [] ++ Bits.ofBytes data = _
    rw [List.nil_append, hdata]
    simp only [wordBits, Decompressor.endBits, List.append_assoc]
  exact Decompressor.drain_blocks h.blocks_readable hsize (by decide)
    (Field.runs_field hread (by simp [Field.need])) hunread

/-- A valid text gives its data, whatever follows it. -/
theorem drain_bytes {t : StreamText} (h : t.Valid) (trailing : List UInt8) :
    (Decompressor.start.drain (t.bytes ++ trailing)).map (·.result) =
      (t.blocks.map fun b => .ok (.block b.data.toArray)) ++ [.ok .endOfStream] := by
  obtain ⟨n, -, hpack⟩ := Bits.ofBytes_pack t.bits
  have hdata : Bits.ofBytes (t.bytes ++ trailing) =
      t.wordBits ++ (List.replicate n false ++ Bits.ofBytes trailing) := by
    rw [Bits.ofBytes_append, bytes, hpack, h.wordBits_eq, List.append_assoc]
  exact (h.readable.drain_wordBits hdata).1

end StreamText

end Bunzip.Stream
