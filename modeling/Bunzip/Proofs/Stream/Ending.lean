import Bunzip.Proofs.Stream.Unambiguous

/-!
# The end of a stream

Data are accepted exactly if they begin with the bits of a valid stream, or of one with a long table
(`Decompressor.ends_iff`), as there are (`Decompressor.ends_on_longBytes`). Then no byte behind the
last of these bits is used, however the data come (`Decompressor.ends_at_last_bit`). Between calls fewer bits are kept than the mark of the end and
its checksum have (`Short`), so none of them is left when these are read.
-/

namespace Bunzip.Stream

open Huffman Block

/-! ## The mark of the end -/

namespace BlockText

theorem mark_prefix_paramBits (head : Head) :
    Bits.ofNat 48 Format.blockMark <+: paramBits head := by
  simp only [paramBits, List.append_assoc]
  exact List.prefix_append _ _

theorem mark_prefix_openingBits (b : BlockText) (tables : Nat) :
    Bits.ofNat 48 Format.blockMark <+: b.openingBits tables := by
  simp only [openingBits, List.append_assoc]
  exact (mark_prefix_paramBits _).trans (List.prefix_append _ _)

theorem mark_prefix_selectorBits (b : BlockText) (tables count : Nat) :
    Bits.ofNat 48 Format.blockMark <+: b.selectorBits tables count := by
  simp only [selectorBits, List.append_assoc]
  exact (b.mark_prefix_openingBits tables).trans (List.prefix_append _ _)

theorem mark_prefix_tableBits (b : BlockText) (tables : Nat) :
    Bits.ofNat 48 Format.blockMark <+: b.tableBits tables :=
  (b.mark_prefix_selectorBits tables _).trans (List.prefix_append _ _)

end BlockText

/-- What has been read of a block begins with its mark. -/
theorem Phase.Begun.eq_nil_or_mark {phase : Phase} {blockSize : Nat} {begun : List Bool}
    (h : phase.Begun blockSize begun) : begun = [] ∨ Bits.ofNat 48 Format.blockMark <+: begun := by
  match phase with
  | .field .streamHeader => cases h
  | .field .blockHeader => exact .inl h
  | .field (.blockParams stored) =>
    obtain rfl : begun = _ := h
    exact .inr (List.prefix_append _ _)
  | .field (.usedGroups head) =>
    obtain rfl : begun = _ := h
    exact .inr (BlockText.mark_prefix_paramBits head)
  | .field (.usedBitmaps head groups) =>
    obtain rfl : begun = _ := h
    exact .inr ((BlockText.mark_prefix_paramBits head).trans (List.prefix_append _ _))
  | .field (.selectorCount draft) =>
    obtain ⟨b, tables, -, -, -, -, rfl⟩ := h
    exact .inr (b.mark_prefix_openingBits tables)
  | .field (.selector draft index) =>
    obtain ⟨b, tables, count, -, -, -, rfl⟩ := h
    exact .inr (b.mark_prefix_selectorBits tables count)
  | .field (.codeLength draft ⟨table, none⟩) =>
    obtain ⟨b, tables, -, -, -, rfl⟩ := h
    exact .inr (b.mark_prefix_tableBits tables)
  | .field (.codeLength draft ⟨table, some running⟩) =>
    obtain ⟨b, tables, t, now, -, -, -, -, -, -, rfl⟩ := h
    exact .inr ((b.mark_prefix_tableBits tables).trans (List.prefix_append _ _))
  | .payload p =>
    obtain ⟨b, -, rfl⟩ := h
    exact .inr b.mark_prefix_wordBits
  | .ended => cases h
  | .closed => cases h

theorem Phase.Begun.eq_nil {phase : Phase} {blockSize : Nat} {begun back : List Bool}
    {checksum : UInt32} (h : phase.Begun blockSize begun)
    (hend : begun ++ back = Decompressor.endBits checksum) : begun = [] := by
  rcases h.eq_nil_or_mark with hnil | hmark
  · exact hnil
  · refine absurd ?_ (BlockText.not_mark_prefix_endBits checksum [])
    rw [List.append_nil, ← hend]
    exact hmark.trans (List.prefix_append begun back)

/-- The mark of the end and the checksum are still to be read before a stream ends. -/
theorem State.Told.length_add_le {s : State} {t : StreamText} {word back : List Bool}
    (h : s.Told t.blocks word) (hword : word ++ back = t.wordBits) : 80 ≤ back.length := by
  have hend := Decompressor.length_endBits t.checksum
  rw [StreamText.wordBits_eq_front] at hword
  generalize hblocks : t.blocks = blocks at h
  cases h with
  | start =>
    rw [List.nil_append] at hword
    rw [hword, List.length_append, hend]
    exact Nat.le_add_left _ _
  | @begun other phase begun ht h =>
    -- both have read the same blocks, so what has begun stands where the mark of the end does
    have hlength : other.frontBits.length = t.frontBits.length := by
      simp only [StreamText.frontBits, List.length_append, Bits.length_ofNat, hblocks]
    rw [List.append_assoc] at hword
    obtain ⟨-, hrest⟩ := List.append_inj hword hlength
    obtain rfl := h.eq_nil hrest
    rw [List.nil_append] at hrest
    exact Nat.le_of_eq (hrest ▸ hend.symm)

/-! ## A stream of one byte -/

/-- The byte `b` as a block. -/
def BlockText.oneByte : BlockText where
  stored := 0x14d0bdb2
  randomised := false
  pointer := 0
  groups := 0x0200
  bitmaps := [0x2000]
  positions := [1]
  tables := [⟨1, [[], [false], []]⟩, ⟨2, [[], [], [true]]⟩]
  symbols := [0, 2]

theorem BlockText.valid_oneByte {blockSize : Nat} (hsize : 1 ≤ blockSize) :
    oneByte.Valid blockSize where
  length_bitmaps := by decide +kernel
  used_ne_nil := by decide +kernel
  tables_ge := by decide
  tables_le := by decide
  selectors_ge := by decide
  selectors_le := by decide
  positions_lt := by decide
  tables_valid := by
    have halphabet : oneByte.alphabet = 3 := by decide +kernel
    rw [halphabet]
    intro t ht
    rcases List.mem_pair.1 ht with rfl | rfl <;> exact ⟨by decide, by decide, by decide, by decide⟩
  ends := ⟨[0], by decide +kernel, by decide +kernel⟩
  selectors_suffice := by decide
  resolves := by
    intro symbol index hmem
    have hword : ∃ word, Canonical.codeWord? (oneByte.lengthsAt index) symbol = some word := by
      rcases List.mem_pair.1 hmem with h | h <;> cases h
      · exact ⟨[true, false], by decide +kernel⟩
      · exact ⟨[false], by decide +kernel⟩
    obtain ⟨word, hword⟩ := hword
    exact ⟨word, hword, Canonical.begins_of_codeWord? hword⟩
  column_le := by
    have hcolumn : oneByte.column = [98] := by decide +kernel
    rw [hcolumn]
    exact hsize
  pointer_lt_column := by decide +kernel
  stored_eq := by decide +kernel

namespace StreamText

def oneByte : StreamText := ⟨1, [BlockText.oneByte]⟩

theorem valid_oneByte : oneByte.Valid := by
  refine ⟨by decide, by decide, fun b hb => ?_⟩
  rw [List.mem_singleton.1 hb]
  exact BlockText.valid_oneByte (by decide)

/-- The stream of one byte with `2 ^ 30` steps to the first code length of a table. -/
def longBytes : List UInt8 := Bits.pack (oneByte.detour (2 ^ 29)).wordBits

end StreamText

namespace Decompressor

variable {d : Decompressor} {blocks : List BlockText} {taken chunk : List UInt8}

/-! ## Kept bits -/

/-- Fewer bits are kept than the mark of the end and its checksum have, or than the state will read
before it leads to another. -/
def Short (d : Decompressor) : Prop :=
  d.bits.pending < 80 ∨ d.bits.pending < d.state.leastSpent

theorem short_of_starved {s state : State} {r last : BitReader}
    (h : s.advance r = ⟨state, last, .starved⟩) : Short ⟨state, last.suspend⟩ := by
  have hneed := State.need_of_starved (congrArg Stop.halt h)
  rw [h] at hneed
  rw [Short, BitState.pending_eq, BitReader.bits_suspend]
  obtain ⟨phase, blockSize, streamCrc⟩ := state
  cases phase with
  | field field =>
    rcases field.need_le with hle | ⟨head, groups, rfl⟩
    · exact .inl (Nat.lt_of_lt_of_le hneed hle)
    · exact .inr hneed
  | payload payload => exact .inl (Nat.lt_trans hneed (show Format.maxSearch < 80 by decide))
  | ended => exact absurd hneed (Nat.not_lt_zero _)
  | closed => exact absurd hneed (Nat.not_lt_zero _)

theorem Short.of_block {data : Array UInt8} (h : d.Short) (htidy : d.Tidy)
    (hopen : d.state.phase ≠ .closed)
    (hblock : (d.decompress chunk).result = .ok (.block data)) :
    (d.decompress chunk).next.Short := by
  rw [decompress_eq_settle hopen] at hblock ⊢
  generalize hstop : d.state.advance (BitReader.bind d.bits chunk) = stop at hblock ⊢
  obtain ⟨state, last, halt⟩ := stop
  cases halt with
  | complete readout =>
    obtain ⟨m, n, -, hn, hleast, rfl⟩ := State.advance_complete hstop
    have hskip : ((BitReader.bind d.bits chunk).skip n).release.pending < 80 := by
      rcases h with hshort | hshort <;> rcases pending_skip htidy hn hleast with hkept | hkept <;>
        omega
    have hheld := htidy.length_held_skip hn hleast
    have hrefill := pending_refill_le ((BitReader.bind d.bits chunk).skip n)
    simp only [settle, deliver] at hblock ⊢
    split at hblock
    · cases hblock
    split at hblock
    · cases hblock
    refine .inl ?_
    show (ite _ _ _ : BitReader).release.pending < 80
    split <;> omega
  | _ => cases hblock

/-! ## Calls -/

/-- A decompressor between two calls on a stream that goes on. -/
structure Steady (d : Decompressor) (blocks : List BlockText) (taken : List UInt8) : Prop where
  reading : d.Reading blocks taken
  tidy : d.Tidy
  short : d.Short

theorem steady_start : start.Steady [] [] :=
  ⟨reading_start, .inl (by decide), .inl (by decide)⟩

theorem Steady.suspended (h : d.Steady blocks taken)
    (hresult : (d.decompress chunk).result = .ok .suspended) :
    (d.decompress chunk).next.Steady blocks (taken ++ chunk) := by
  obtain ⟨used, hused, htold⟩ := h.reading.decompress chunk
  rw [hresult] at htold
  rw [rest_of_suspended hresult, List.append_nil] at hused
  refine ⟨hused ▸ htold, h.tidy.decompress chunk, ?_⟩
  rw [decompress_eq_settle h.reading.phase_ne.2] at hresult ⊢
  have hstarved := result_settle.1 hresult
  generalize hstop : d.state.advance (BitReader.bind d.bits chunk) = stop at hstarved ⊢
  obtain ⟨state, last, halt⟩ := stop
  cases hstarved
  exact short_of_starved hstop

theorem Steady.block {data : Array UInt8} (h : d.Steady blocks taken)
    (hresult : (d.decompress chunk).result = .ok (.block data)) :
    ∃ (b : BlockText) (used : List UInt8), data.toList = b.data ∧
      chunk = used ++ (d.decompress chunk).rest ∧
      (d.decompress chunk).next.Steady (blocks ++ [b]) (taken ++ used) := by
  obtain ⟨used, hused, htold⟩ := h.reading.decompress chunk
  rw [hresult] at htold
  obtain ⟨b, hdata, hreading⟩ := htold
  exact ⟨b, used, hdata, hused, hreading, h.tidy.decompress chunk,
    h.short.of_block h.tidy h.reading.phase_ne.2 hresult⟩

/-- A call in which the stream ends reads the mark of the end and the checksum behind it. -/
theorem Reading.advance_end {state : State} {last : BitReader} (h : d.Reading blocks taken)
    (hstop : d.state.advance (BitReader.bind d.bits chunk) = ⟨state, last, .ended⟩) :
    ∃ n, 80 ≤ n ∧ n ≤ (BitReader.bind d.bits chunk).bits.length ∧
      last = (BitReader.bind d.bits chunk).skip n ∧ d.state.leastSpent ≤ n := by
  obtain ⟨word, htold, -⟩ := h
  have hends := htold.advance (BitReader.bind d.bits chunk)
  obtain ⟨n, hn, hlast, hcase⟩ := State.advance_waits (.inr (congrArg Stop.halt hstop))
  rw [hstop] at hends hlast hcase
  obtain rfl : last = _ := hlast
  obtain ⟨whole, htotal, -, t, -, rfl, rfl, -⟩ := hends
  have hword : word ++ (BitReader.bind d.bits chunk).bits.take n = t.wordBits := by
    refine (List.append_left_inj ((BitReader.bind d.bits chunk).bits.drop n)).1 ?_
    rw [List.append_assoc, List.take_append_drop, htotal, BitReader.bits_skip hn]
  have hlong := htold.length_add_le hword
  rw [List.length_take, Nat.min_eq_left hn] at hlong
  refine ⟨n, hlong, hn, rfl, ?_⟩
  rcases hcase with ⟨hzero, -⟩ | hleast
  · omega
  · exact hleast

/-- When the stream ends, its bits have been read, and less than a byte is left of the used ones. -/
theorem Steady.ended (h : d.Steady blocks taken)
    (hresult : (d.decompress chunk).result = .ok .endOfStream) :
    ∃ (t : StreamText) (used : List UInt8), t.Readable ∧ t.blocks = blocks ∧
      chunk = used ++ (d.decompress chunk).rest ∧
      Bits.ofBytes (taken ++ used) = t.wordBits ++ (d.decompress chunk).next.bits.bits ∧
      (d.decompress chunk).next.bits.pending < 8 := by
  obtain ⟨used, hused, htold⟩ := h.reading.decompress chunk
  rw [hresult] at htold
  obtain ⟨-, t, ht, hblocks, -, hbits⟩ := htold
  refine ⟨t, used, ht, hblocks, hused, hbits, ?_⟩
  clear hused hbits
  rw [decompress_eq_settle h.reading.phase_ne.2] at hresult ⊢
  generalize hstop : d.state.advance (BitReader.bind d.bits chunk) = stop at hresult ⊢
  obtain ⟨state, last, halt⟩ := stop
  cases halt with
  | ended =>
    obtain ⟨n, hlong, hn, rfl, hleast⟩ := h.reading.advance_end hstop
    show ((BitReader.bind d.bits chunk).skip n).release.pending < 8
    rcases h.short with hshort | hshort <;> rcases pending_skip h.tidy hn hleast with hkept | hkept <;>
      omega
  | starved => cases hresult
  | failed => cases hresult
  | complete readout =>
    simp only [settle, deliver] at hresult
    split at hresult
    · cases hresult
    split at hresult <;> cases hresult

/-! ## Drains -/

/-- The number of bytes that calls use, each on what the one before it left of a chunk. -/
def bytesUsed : List UInt8 → List Call → Nat
  | _, [] => 0
  | chunk, call :: calls => (chunk.length - call.rest.length) + bytesUsed call.rest calls

/-- A drain leads to a last call, on a part of the chunk; what comes before it was used. -/
theorem Steady.drain (h : d.Steady blocks taken) (chunk : List UInt8) :
    ∃ (e : Decompressor) (new : List BlockText) (used left : List UInt8),
      (d.drain chunk).getLast? = some (e.decompress left) ∧
      (∀ data, (e.decompress left).result ≠ .ok (.block data)) ∧
      chunk = used ++ left ∧ e.Steady (blocks ++ new) (taken ++ used) ∧
      bytesUsed chunk (d.drain chunk) =
        used.length + (left.length - (e.decompress left).rest.length) := by
  induction hweight : d.weight chunk using Nat.strongRecOn generalizing d blocks taken chunk with
  | ind n ih =>
    by_cases hblock : ∃ data, (d.decompress chunk).result = .ok (.block data)
    · obtain ⟨data, hdata⟩ := hblock
      have hlt := weight_decompress_lt hdata
      obtain ⟨b, used, -, hused, hnext⟩ := h.block hdata
      obtain ⟨e, new, more, left, hlast, hend, hrest, he, hbytes⟩ :=
        ih _ (hweight ▸ hlt) hnext (d.decompress chunk).rest rfl
      have hlength := congrArg List.length hused
      have hlength' := congrArg List.length hrest
      rw [List.length_append] at hlength hlength'
      rw [drain_of_block hdata]
      refine ⟨e, b :: new, used ++ more, left, ?_, hend, ?_, ?_, ?_⟩
      · rw [List.getLast?_cons, hlast]
        rfl
      · rw [hused, hrest, List.append_assoc]
      · rw [List.append_cons, ← List.append_assoc]
        exact he
      · rw [bytesUsed, hbytes, List.length_append]
        omega
    · have hne : ∀ data, (d.decompress chunk).result ≠ .ok (.block data) :=
        fun data hdata => hblock ⟨data, hdata⟩
      rw [drain_of_not_block hne]
      refine ⟨d, [], [], chunk, rfl, hne, rfl, ?_, ?_⟩
      · rw [List.append_nil, List.append_nil]
        exact h
      · rw [bytesUsed, bytesUsed, List.length_nil, Nat.zero_add, Nat.add_zero]

/-! ## Acceptance -/

/-- Fed at once, data lead to the end of a stream exactly if they begin with a readable text. -/
theorem ends_iff_readable (data : List UInt8) :
    ((start.drain data).map (·.result)).getLast? = some (.ok .endOfStream) ↔
      ∃ t : StreamText, t.Readable ∧ t.wordBits <+: Bits.ofBytes data := by
  constructor
  · intro hend
    obtain ⟨e, new, used, left, hlast, -, hdata, he, -⟩ := steady_start.drain data
    rw [List.getLast?_map, hlast] at hend
    obtain ⟨t, more, ht, -, hmore, hbits, -⟩ := he.ended (Option.some.inj hend)
    refine ⟨t, ht, ?_⟩
    rw [hdata, hmore, ← List.append_assoc, Bits.ofBytes_append, ← List.nil_append used, hbits,
      List.append_assoc]
    exact List.prefix_append _ _
  · rintro ⟨t, ht, rest, hrest⟩
    rw [(ht.drain_wordBits hrest.symm).1, List.getLast?_append]
    rfl

/-- Data that begin with the bits of a text with a long table are accepted, and begin with no valid
stream. -/
theorem ends_of_long {t : StreamText} (ht : t.Readable) (hlong : t.Long) {data : List UInt8}
    (hfront : t.wordBits <+: Bits.ofBytes data) :
    ((start.drain data).map (·.result)).getLast? = some (.ok .endOfStream) ∧
      ¬ ∃ s : StreamText, s.Valid ∧ s.bits <+: Bits.ofBytes data := by
  refine ⟨(ends_iff_readable data).2 ⟨t, ht, hfront⟩, ?_⟩
  rintro ⟨s, hs, hsfront⟩
  rw [← hs.wordBits_eq] at hsfront
  obtain rfl := hs.readable.unique ht hsfront hfront
  exact hlong.not_valid hs

/-- Fed at once, data lead to the end of a stream exactly if they begin with the bits of a valid
stream, or of one that makes `2 ^ 30` steps or more to the code lengths of a table. Fewer than
`2 ^ 28` bytes have no room for that many steps. -/
theorem ends_iff (data : List UInt8) :
    (((start.drain data).map (·.result)).getLast? = some (.ok .endOfStream) ↔
      (∃ t : StreamText, t.Valid ∧ t.bits <+: Bits.ofBytes data) ∨
        ∃ t : StreamText, t.Readable ∧ t.Long ∧ t.wordBits <+: Bits.ofBytes data) ∧
    (data.length < 2 ^ 28 →
      (((start.drain data).map (·.result)).getLast? = some (.ok .endOfStream) ↔
        ∃ t : StreamText, t.Valid ∧ t.bits <+: Bits.ofBytes data)) := by
  have hreadable : (∃ t : StreamText, t.Readable ∧ t.wordBits <+: Bits.ofBytes data) ↔
      (∃ t : StreamText, t.Valid ∧ t.bits <+: Bits.ofBytes data) ∨
        ∃ t : StreamText, t.Readable ∧ t.Long ∧ t.wordBits <+: Bits.ofBytes data := by
    constructor
    · rintro ⟨t, ht, hfront⟩
      rcases ht.valid_or_long with hvalid | hlong
      · exact .inl ⟨t, hvalid, hvalid.wordBits_eq ▸ hfront⟩
      · exact .inr ⟨t, ht, hlong, hfront⟩
    · rintro (⟨t, hvalid, hfront⟩ | ⟨t, ht, -, hfront⟩)
      · exact ⟨t, hvalid.readable, hvalid.wordBits_eq.symm ▸ hfront⟩
      · exact ⟨t, ht, hfront⟩
  rw [ends_iff_readable, hreadable]
  refine ⟨Iff.rfl, fun hlength => or_iff_left ?_⟩
  rintro ⟨t, -, hlong, hfront⟩
  have hbits := hlong.length_wordBits
  have hroom := hfront.length_le
  rw [Bits.length_ofBytes] at hroom
  omega

/-- A long table is read like any other. -/
theorem ends_on_longBytes :
    ((start.drain StreamText.longBytes).map (·.result)).getLast? = some (.ok .endOfStream) ∧
      ¬ ∃ t : StreamText, t.Valid ∧ t.bits <+: Bits.ofBytes StreamText.longBytes := by
  have hreadable := StreamText.valid_oneByte.readable
  obtain ⟨n, -, hpack⟩ := Bits.ofBytes_pack (StreamText.oneByte.detour (2 ^ 29)).wordBits
  exact ends_of_long (hreadable.detour (2 ^ 29))
    (hreadable.long_detour (List.cons_ne_nil _ _) (Nat.le_refl _)) ⟨_, hpack.symm⟩

/-! ## Place of the end -/

/-- The number of bytes that the calls use when chunks are fed. -/
def bytesFed (d : Decompressor) (chunks : List (List UInt8)) : Nat :=
  (List.zipWith bytesUsed chunks (d.feed chunks)).foldr (· + ·) 0

/-- The chunks that are not fed, and the rest of the last one that is. -/
def unfed (d : Decompressor) (chunks : List (List UInt8)) (last : Call) : List UInt8 :=
  last.rest ++ (chunks.drop (d.feed chunks).length).flatten

theorem bytesFed_of_suspended {call : Call} {chunks : List (List UInt8)}
    (hlast : (d.drain chunk).getLast? = some call) (hresult : call.result = .ok .suspended) :
    d.bytesFed (chunk :: chunks) = bytesUsed chunk (d.drain chunk) + call.next.bytesFed chunks := by
  rw [bytesFed, feed_of_suspended hlast hresult, List.zipWith_cons_cons, List.foldr_cons]
  rfl

theorem bytesFed_of_not_suspended {call : Call} {chunks : List (List UInt8)}
    (hlast : (d.drain chunk).getLast? = some call) (hresult : call.result ≠ .ok .suspended) :
    d.bytesFed (chunk :: chunks) = bytesUsed chunk (d.drain chunk) := by
  rw [bytesFed, feed_of_not_suspended hlast hresult, List.zipWith_cons_cons, List.zipWith_nil_right]
  rfl

theorem unfed_of_suspended {call last : Call} {chunks : List (List UInt8)}
    (hlast : (d.drain chunk).getLast? = some call) (hresult : call.result = .ok .suspended) :
    d.unfed (chunk :: chunks) last = call.next.unfed chunks last := by
  rw [unfed, feed_of_suspended hlast hresult, List.length_cons, List.drop_succ_cons]
  rfl

theorem unfed_of_not_suspended {call last : Call} {chunks : List (List UInt8)}
    (hlast : (d.drain chunk).getLast? = some call) (hresult : call.result ≠ .ok .suspended) :
    d.unfed (chunk :: chunks) last = last.rest ++ chunks.flatten := by
  rw [unfed, feed_of_not_suspended hlast hresult]
  rfl

/-- Data that lead to the end of a stream do so in chunks. -/
theorem feed_ends {chunks : List (List UInt8)}
    (hend : ((start.drain chunks.flatten).map (·.result)).getLast? = some (.ok .endOfStream)) :
    ∃ last, (start.feed chunks).flatten.getLast? = some last ∧
      last.result = .ok .endOfStream := by
  obtain ⟨e, new, used, left, hdrain, -, -, he, -⟩ := steady_start.drain chunks.flatten
  obtain ⟨front, hfront⟩ := List.getLast?_eq_some_iff.1 hdrain
  rw [List.getLast?_map, hdrain] at hend
  have hresult : (e.decompress left).result = .ok .endOfStream := Option.some.inj hend
  obtain ⟨more, -, htold⟩ := he.reading.decompress left
  rw [hresult] at htold
  obtain ⟨hphase, -⟩ := htold
  obtain ⟨hreported, hstate⟩ := Prod.mk.inj (trace_feed waiting_start chunks)
  rw [after_of_getLast? hdrain] at hstate
  rw [hfront, reported_append, reported_singleton (by rw [hresult]; nofun), hresult] at hreported
  cases hlast : (start.feed chunks).flatten.getLast? with
  | none =>
    rw [List.getLast?_eq_none_iff.1 hlast] at hreported
    exact absurd hreported.symm (List.concat_ne_nil _ _)
  | some last =>
    refine ⟨last, rfl, ?_⟩
    rw [after_of_getLast? hlast] at hstate
    have hgoing : last.result ≠ .ok .suspended := fun hsuspended => by
      have hwaits := (waiting_of_feed waiting_start hlast hsuspended).result
      rw [decompress_of_ended (hstate ▸ hphase)] at hwaits
      cases hwaits
    obtain ⟨calls, hcalls⟩ := List.getLast?_eq_some_iff.1 hlast
    rw [hcalls, reported_append, reported_singleton hgoing] at hreported
    exact List.head_eq_of_cons_eq (List.append_inj_right' hreported rfl)

/-- If the stream ends while chunks are fed, its bits have been read, and less than a byte is left
of the used ones. -/
theorem Steady.feed {chunks : List (List UInt8)} {last : Call} (h : d.Steady blocks taken)
    (hlast : (d.feed chunks).flatten.getLast? = some last)
    (hend : last.result = .ok .endOfStream) :
    ∃ (t : StreamText) (used : List UInt8), t.Readable ∧
      chunks.flatten = used ++ d.unfed chunks last ∧ d.bytesFed chunks = used.length ∧
      Bits.ofBytes (taken ++ used) = t.wordBits ++ last.next.bits.bits ∧
      last.next.bits.pending < 8 := by
  induction chunks generalizing d blocks taken with
  | nil => cases hlast
  | cons chunk chunks ih =>
    obtain ⟨e, new, used, left, hdrain, -, rfl, he, hbytes⟩ := h.drain chunk
    by_cases hsuspended : (e.decompress left).result = .ok .suspended
    · have hrest := rest_of_suspended hsuspended
      have hnext := he.suspended hsuspended
      rw [List.append_assoc] at hnext
      rw [feed_of_suspended hdrain hsuspended, List.flatten_cons, List.getLast?_append,
        Option.or_eq_some_iff] at hlast
      rcases hlast with hlast | ⟨-, hlast⟩
      · obtain ⟨t, more, ht, hflatten, hfed, hbits, hpending⟩ := ih hnext hlast
        refine ⟨t, used ++ left ++ more, ht, ?_, ?_, ?_, hpending⟩
        · rw [unfed_of_suspended hdrain hsuspended, List.flatten_cons, hflatten,
            List.append_assoc (used ++ left)]
        · rw [bytesFed_of_suspended hdrain hsuspended, hbytes, hfed, hrest, List.length_append,
            List.length_append]
          rfl
        · rw [← hbits, List.append_assoc taken]
      · rw [hdrain] at hlast
        cases hlast
        rw [hsuspended] at hend
        cases hend
    · rw [feed_of_not_suspended hdrain hsuspended, List.flatten_singleton, hdrain] at hlast
      cases hlast
      obtain ⟨t, more, ht, -, hmore, hbits, hpending⟩ := he.ended hend
      refine ⟨t, used ++ more, ht, ?_, ?_, ?_, hpending⟩
      · rw [unfed_of_not_suspended hdrain hsuspended, List.flatten_cons, List.append_assoc,
          List.append_assoc, ← List.append_assoc more, ← hmore]
      · have hlength := congrArg List.length hmore
        rw [List.length_append] at hlength
        rw [bytesFed_of_not_suspended hdrain hsuspended, hbytes, List.length_append]
        omega
      · rw [← List.append_assoc, hbits]

/-- If the stream ends while chunks are fed, the calls have used the bytes of its bits, whatever the
chunks are and whatever follows the stream. The first byte behind it is the first that is not used,
and no whole byte is kept. -/
theorem ends_at_last_bit {chunks : List (List UInt8)} {last : Call}
    (hlast : (start.feed chunks).flatten.getLast? = some last)
    (hend : last.result = .ok .endOfStream) :
    (∃ t : StreamText, t.Readable ∧ t.wordBits <+: Bits.ofBytes chunks.flatten) ∧
      (∀ t : StreamText, t.Readable → t.wordBits <+: Bits.ofBytes chunks.flatten →
        start.bytesFed chunks = (t.wordBits.length + 7) / 8) ∧
      start.unfed chunks last = chunks.flatten.drop (start.bytesFed chunks) ∧
      last.next.bits.pending < 8 := by
  obtain ⟨t, used, ht, hflatten, hfed, hbits, hpending⟩ := steady_start.feed hlast hend
  rw [List.nil_append] at hbits
  have hprefix : t.wordBits <+: Bits.ofBytes chunks.flatten := by
    rw [hflatten, Bits.ofBytes_append, hbits, List.append_assoc]
    exact List.prefix_append _ _
  refine ⟨⟨t, ht, hprefix⟩, fun s hs hsfront => ?_, ?_, hpending⟩
  · have hlength := congrArg List.length hbits
    rw [Bits.length_ofBytes, List.length_append, ← BitState.pending_eq] at hlength
    rw [hs.unique ht hsfront hprefix, hfed]
    omega
  · rw [hflatten, hfed, List.drop_left]

/-- The stream of one byte, with fewer bits in its last byte, cut inside its block, and two bytes
behind it. -/
theorem ends_at_last_bit_oneByte : ∃ last,
    (start.feed [StreamText.oneByte.bytes.take 20, [], StreamText.oneByte.bytes.drop 20 ++ [0xff],
        [0x42]]).flatten.getLast? = some last ∧
      last.result = .ok .endOfStream ∧
      start.bytesFed [StreamText.oneByte.bytes.take 20, [],
        StreamText.oneByte.bytes.drop 20 ++ [0xff], [0x42]] = 37 ∧
      start.unfed [StreamText.oneByte.bytes.take 20, [],
        StreamText.oneByte.bytes.drop 20 ++ [0xff], [0x42]] last = [0xff, 0x42] ∧
      last.next.bits.pending < 8 := by
  have hbits : StreamText.oneByte.wordBits <+: Bits.ofBytes [StreamText.oneByte.bytes.take 20, [],
      StreamText.oneByte.bytes.drop 20 ++ [0xff], [0x42]].flatten := by
    decide +kernel
  have hreadable := StreamText.valid_oneByte.readable
  obtain ⟨last, hlast, hend⟩ := feed_ends ((ends_iff_readable _).2 ⟨_, hreadable, hbits⟩)
  obtain ⟨-, hused, hunfed, hpending⟩ := ends_at_last_bit hlast hend
  have hlength : StreamText.oneByte.wordBits.length = 292 := by decide +kernel
  have hbytes := hused _ hreadable hbits
  rw [hlength] at hbytes
  refine ⟨last, hlast, hend, hbytes, ?_, hpending⟩
  rw [hunfed, hbytes]
  decide +kernel

end Decompressor

end Bunzip.Stream
