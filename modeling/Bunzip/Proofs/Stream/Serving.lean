import Bunzip.Proofs.Huffman.Kraft
import Bunzip.Proofs.Huffman.Symbols
import Bunzip.Proofs.Stream.Reading

/-!
# What a payload has read

The converse of `Payload.run_symbols`: a payload that has come so far has read a block text so far.
`BlockText.Served` states what payload and text have in common; one symbol adds its code word to the
text (`Served.step`), and a payload that is complete has read a block that is readable if its
checksum is right, and reads out its column (`Served.run`).
-/

namespace Bunzip.Stream

open Scan Huffman Block

namespace BlockText

variable {b : BlockText} {blockSize symbol : Nat} {p after : Payload} {r next : BitReader}

/-- The rules for a block before its payload. Its code lengths may make detours. -/
structure HeadReadable (b : BlockText) : Prop where
  length_bitmaps : b.bitmaps.length = (UsedMap.flagged b.groups).length
  used_ne_nil : b.used ≠ []
  tables_ge : Format.minTables ≤ b.tables.length
  tables_le : b.tables.length ≤ Format.maxTables
  selectors_ge : 1 ≤ b.positions.length
  selectors_le : b.positions.length ≤ Format.maxSelectors
  positions_lt : ∀ position ∈ b.positions, position < b.tables.length
  tables_readable : ∀ t ∈ b.tables, ReadableTable b.alphabet t

def push (b : BlockText) (symbol : Nat) : BlockText := { b with symbols := b.symbols ++ [symbol] }

/-- The rules for a block as far as its symbols go. -/
structure Decodable (b : BlockText) : Prop extends b.HeadReadable where
  selectors_suffice : b.symbols.length ≤ Format.groupSize * b.positions.length
  resolves : ∀ symbol index, (symbol, index) ∈ b.symbols.zipIdx →
    ∃ word, Canonical.codeWord? (b.straight.lengthsAt index) symbol = some word

/-- The payload has read the symbols of the block so far, none of which ends it. -/
structure Served (blockSize : Nat) (b : BlockText) (p : Payload) : Prop where
  decodable : b.Decodable
  head_eq : p.head = ⟨b.stored, b.randomised, b.pointer⟩
  decoder_eq : p.decoder = ⟨(b.straight.tableLengths.map Table.ofLengths).toArray,
    b.selectors.toArray, b.symbols.length⟩
  limit_eq : p.expansion.limit = blockSize
  used_eq : p.expansion.used = b.used.toArray
  symbols_le : ∀ symbol ∈ b.symbols, symbol ≤ b.used.length
  fits : p.expansion.bytes.size + p.expansion.run ≤ blockSize
  /-- What the expansion has given and will give is what the tokens say. -/
  expands : ∃ order, p.expansion.Holds order ∧ ∀ rest,
    p.expansion.bytes.toList ++
        Token.expandFrom order p.expansion.run p.expansion.weight rest =
      Token.expandFrom b.used 0 1 (b.symbols.map (Token.ofSymbol b.used.length) ++ rest)

/-- The payload of the block is complete, and its readout begins. -/
structure Completed (blockSize : Nat) (b : BlockText) (readout : Readout) : Prop where
  decodable : b.Decodable
  ends : ∃ front, b.symbols = front ++ [b.used.length + 1] ∧ b.used.length + 1 ∉ front
  column_le : b.column.length ≤ blockSize
  pointer_lt_column : b.pointer < b.column.length
  readout_eq : ∃ walk, readout = Readout.start walk b.randomised b.stored ∧
    walk.Gives (Rotations.unsort b.column b.pointer)

/-- A block whose payload is complete is readable if it has the checksum of its data. -/
theorem Completed.readable {readout : Readout} (h : b.Completed blockSize readout)
    (hstored : b.stored = Crc.ofBytes b.data) : b.Readable blockSize where
  tables_readable := h.decodable.tables_readable
  straight_valid := by
    have hlength : b.straight.tables.length = b.tables.length := List.length_map _
    obtain ⟨⟨length_bitmaps, used_ne_nil, tables_ge, tables_le, selectors_ge, selectors_le,
      positions_lt, tables_readable⟩, selectors_suffice, resolves⟩ := h.decodable
    rw [← hlength] at tables_ge tables_le positions_lt
    refine ⟨length_bitmaps, used_ne_nil, tables_ge, tables_le, selectors_ge, selectors_le,
      positions_lt, fun t ht => ?_, h.ends, selectors_suffice, fun symbol index hmem => ?_,
      h.column_le, h.pointer_lt_column, hstored⟩
    · obtain ⟨other, hother, rfl⟩ := List.mem_map.1 ht
      have hused := UsedMap.length_decode_le b.groups b.bitmaps
      exact (tables_readable other hother).straight (Nat.add_le_add_right hused 2)
    · obtain ⟨word, hword⟩ := resolves symbol index hmem
      exact ⟨word, hword, Canonical.begins_of_codeWord? hword⟩

/-! ## One symbol -/

theorem wordBits_push {word : List Bool}
    (h : Canonical.codeWord? (b.straight.lengthsAt b.symbols.length) symbol = some word) :
    (b.push symbol).wordBits = b.wordBits ++ word := by
  have hpayload : (b.push symbol).straight.payloadBits = b.straight.payloadBits ++ word := by
    have hsymbols : (b.push symbol).straight.symbols = b.straight.symbols ++ [symbol] := rfl
    have hword : Canonical.codeWord? ((b.push symbol).straight.lengthsAt b.straight.symbols.length)
        symbol = some word := h
    rw [payloadBits, hsymbols, List.zipIdx_append, List.flatMap_append, Nat.zero_add,
      List.zipIdx_singleton, List.flatMap_singleton]
    simp only [hword, Option.getD_some]
    rfl
  rw [wordBits, wordBits, hpayload, List.append_assoc]
  rfl

theorem HeadReadable.length_selectors (h : b.HeadReadable) :
    b.selectors.length = b.positions.length := by
  rw [selectors, List.length_map]
  refine MoveToFront.length_decode fun position hposition => ?_
  rw [← tableOrder, length_tableOrder]
  exact h.positions_lt position hposition

theorem HeadReadable.length_of_mem (h : b.HeadReadable) {lengths : List Nat}
    (hlengths : lengths ∈ b.straight.tableLengths) : lengths.length = b.alphabet := by
  rw [tableLengths_straight] at hlengths
  obtain ⟨t, ht, rfl⟩ := List.mem_map.1 hlengths
  rw [LengthText.length_stored, (h.tables_readable t ht).length_steps]

/-- The next symbol comes from its code word in the table of its group. -/
theorem Served.tells_next (h : b.Served blockSize p) :
    Tells p.decoder.next fun word (symbol, decoder) =>
      decoder = { p.decoder with position := b.symbols.length + 1 } ∧ symbol ≤ b.used.length + 1 ∧
        b.symbols.length < Format.groupSize * b.positions.length ∧
        Canonical.codeWord? (b.straight.lengthsAt b.symbols.length) symbol = some word := by
  have hdecoder := h.decoder_eq
  have htables : p.decoder.tables = (b.straight.tableLengths.map Table.ofLengths).toArray := by
    rw [hdecoder]
  refine (Decoder.tells_next htables).mono ?_
  rintro word ⟨symbol, decoder⟩ ⟨rfl, table, lengths, hselector, hlengths, hword⟩
  rw [hdecoder] at hselector ⊢
  simp only [List.getElem?_toArray] at hselector
  have hgroup := (List.getElem?_eq_some_iff.1 hselector).1
  rw [h.decodable.length_selectors] at hgroup
  have hmem := List.mem_of_getElem? hlengths
  have hsymbol := (List.getElem?_eq_some_iff.1 (Canonical.length_of_codeWord? hword)).1
  rw [h.decodable.length_of_mem hmem, alphabet] at hsymbol
  refine ⟨rfl, by omega, ?_, ?_⟩
  · have := Nat.div_add_mod b.symbols.length Format.groupSize
    have := Nat.mod_lt b.symbols.length (show 0 < Format.groupSize by decide)
    have := Nat.mul_le_mul_left Format.groupSize hgroup
    rw [Nat.mul_succ] at this
    omega
  · rw [lengthsAt_eq, selectors_straight]
    simp only [List.getD_eq_getElem?_getD, hselector, Option.getD_some, hlengths]
    exact hword

theorem Decodable.push {word : List Bool} (h : b.Decodable)
    (hlt : b.symbols.length < Format.groupSize * b.positions.length)
    (hword : Canonical.codeWord? (b.straight.lengthsAt b.symbols.length) symbol = some word) :
    (b.push symbol).Decodable := by
  obtain ⟨⟨length_bitmaps, used_ne_nil, tables_ge, tables_le, selectors_ge, selectors_le,
    positions_lt, tables_readable⟩, -, resolves⟩ := h
  refine ⟨⟨length_bitmaps, used_ne_nil, tables_ge, tables_le, selectors_ge, selectors_le,
    positions_lt, tables_readable⟩, ?_, fun other index hmem => ?_⟩
  · rw [BlockText.push, List.length_append, List.length_singleton]
    exact hlt
  · rw [BlockText.push, List.zipIdx_append, List.mem_append, Nat.zero_add,
      List.zipIdx_singleton, List.mem_singleton, Prod.mk.injEq] at hmem
    rcases hmem with hmem | ⟨rfl, rfl⟩
    · exact resolves other index hmem
    · exact ⟨word, hword⟩

/-- A step takes the code word of a symbol, and the expansion takes in its token. -/
theorem Served.exists_symbol {done : Bool} (h : b.Served blockSize p)
    (hstep : p.step r = .ok done (after, next)) :
    ∃ symbol word expansion, r.bits = word ++ next.bits ∧
      (b.push symbol).wordBits = b.wordBits ++ word ∧ (b.push symbol).Decodable ∧
      symbol ≤ b.used.length + 1 ∧
      p.expansion.accept (Token.ofSymbol b.used.length symbol) = .ok done expansion ∧
      after = ⟨p.head, expansion, { p.decoder with position := b.symbols.length + 1 }⟩ := by
  have hused := UsedMap.length_decode_le b.groups b.bitmaps
  have hsize : p.expansion.used.size % 2 ^ 16 = b.used.length := by
    rw [h.used_eq, List.size_toArray]
    exact Nat.mod_eq_of_lt (Nat.lt_of_le_of_lt hused (by decide))
  unfold Payload.step at hstep
  simp only at hstep
  split at hstep
  · cases hstep
  rename_i symbol decoder mid hnext
  obtain ⟨word, hbits, rfl, hsymbol, hlt, hword⟩ := h.tells_next _ _ _ hnext
  rw [hsize] at hstep
  split at hstep
  · cases hstep
  rename_i expansion haccept
  cases hstep
  exact ⟨symbol, word, expansion, hbits, wordBits_push hword, h.decodable.push hlt hword, hsymbol,
    haccept, rfl⟩

/-- A symbol that does not end the block is one more symbol of the text. -/
theorem Served.step (h : b.Served blockSize p) (hstep : p.step r = .ok false (after, next)) :
    ∃ (c : BlockText) (word : List Bool), r.bits = word ++ next.bits ∧
      c.wordBits = b.wordBits ++ word ∧
      c.Served blockSize after := by
  obtain ⟨symbol, word, expansion, hbits, htext, hdecodable, hle, haccept, rfl⟩ :=
    h.exists_symbol hstep
  refine ⟨b.push symbol, word, hbits, htext, ?_⟩
  obtain ⟨order, hholds, hexpands⟩ := h.expands
  have hpos : 0 < b.used.length := List.length_pos_iff.2 h.decodable.used_ne_nil
  have hsymbol : symbol ≤ b.used.length := by
    refine Nat.le_of_lt_succ (Nat.lt_of_le_of_ne hle fun heq => ?_)
    obtain ⟨other, hother, -⟩ := hholds.accept_finish []
    rw [heq, Token.ofSymbol_finish hpos, hother] at haccept
    cases haccept
  obtain ⟨hfinish, hrecent⟩ := Token.ofSymbol_of_le hsymbol
  have hlength : order.length = b.used.length := by
    rw [hholds.length_eq, h.used_eq, List.size_toArray]
  obtain ⟨other, order', hother, hafter, hlimit, hused, hfits, hsame⟩ :=
    hholds.accept (fun position hposition => hlength ▸ hrecent position hposition) hfinish
      (hholds.fits_of_accept hfinish haccept)
  rw [hother] at haccept
  cases haccept
  refine ⟨hdecodable, h.head_eq, ?_, hlimit.trans h.limit_eq, hused.trans h.used_eq, ?_,
    h.limit_eq ▸ hfits, order', hafter, fun rest => ?_⟩
  · rw [h.decoder_eq, push, List.length_append]
    rfl
  · intro s hs
    rcases List.mem_append.1 hs with hs | hs
    · exact h.symbols_le s hs
    · rw [List.mem_singleton.1 hs]
      exact hsymbol
  · rw [hsame rest, hexpands, push, List.map_append, List.append_assoc]
    rfl

/-- The end symbol completes the column. -/
theorem Served.finish (h : b.Served blockSize p) (hstep : p.step r = .ok true (after, next)) :
    ∃ (c : BlockText) (word : List Bool) (order : List UInt8), r.bits = word ++ next.bits ∧
      c.wordBits = b.wordBits ++ word ∧ c.Decodable ∧
      (∃ front, c.symbols = front ++ [c.used.length + 1] ∧ c.used.length + 1 ∉ front) ∧
      after.head = ⟨c.stored, c.randomised, c.pointer⟩ ∧ after.expansion.Holds order ∧
      after.expansion.bytes.toList = c.column ∧ c.column.length ≤ blockSize := by
  obtain ⟨symbol, word, expansion, hbits, htext, hdecodable, hle, haccept, rfl⟩ :=
    h.exists_symbol hstep
  obtain ⟨order, hholds, hexpands⟩ := h.expands
  have hpos : 0 < b.used.length := List.length_pos_iff.2 h.decodable.used_ne_nil
  have hlength : order.length = b.used.length := by
    rw [hholds.length_eq, h.used_eq, List.size_toArray]
  have hsymbol : symbol = b.used.length + 1 := by
    refine Nat.le_antisymm hle (Nat.lt_of_not_le fun hsymbol => ?_)
    obtain ⟨hfinish, hrecent⟩ := Token.ofSymbol_of_le hsymbol
    obtain ⟨other, order', hother, -⟩ :=
      hholds.accept (fun position hposition => hlength ▸ hrecent position hposition) hfinish
        (hholds.fits_of_accept hfinish haccept)
    rw [hother] at haccept
    cases haccept
  subst hsymbol
  have htoken := Token.ofSymbol_finish hpos
  obtain ⟨other, hother, hafter, hbytes⟩ := hholds.accept_finish []
  rw [htoken, hother] at haccept
  cases haccept
  -- the column is what the expansion has given in the end
  have hcolumn : expansion.bytes.toList = (b.push (b.used.length + 1)).column := by
    rw [hbytes, hexpands, Token.expandFrom_eq_expand]
    show _ = Token.expand b.used
      ((b.symbols ++ [b.used.length + 1]).map (Token.ofSymbol b.used.length))
    rw [List.map_append, List.map_singleton, htoken]
  refine ⟨b.push (b.used.length + 1), word, order, hbits, htext, hdecodable,
    ⟨b.symbols, rfl, fun hmem => ?_⟩, h.head_eq, hafter, hcolumn, ?_⟩
  · exact absurd (h.symbols_le _ hmem) (Nat.not_succ_le_self _)
  · have hrun : (Token.expandFrom order p.expansion.run p.expansion.weight [.finish]).length =
        p.expansion.run := List.length_replicate
    rw [← hcolumn, hbytes, List.length_append, hrun]
    exact h.fits

theorem Served.step_end {readout : Readout} (h : b.Served blockSize p) (hsize : blockSize ≤ 2 ^ 24)
    (hstep : p.step r = .ok true (after, next)) (hreadout : after.readout = .ok readout) :
    ∃ (c : BlockText) (word : List Bool), r.bits = word ++ next.bits ∧
      c.wordBits = b.wordBits ++ word ∧
      c.Completed blockSize readout := by
  obtain ⟨c, word, order, hbits, htext, hdecodable, hends, hhead, hholds, hcolumn, hfits⟩ :=
    h.finish hstep
  have hpointer := Payload.pointer_lt_of_readout hreadout
  rw [← Array.length_toList, hcolumn] at hpointer
  obtain ⟨walk, hwalk, hgives⟩ :=
    Payload.readout_of_holds hholds hcolumn (Nat.le_trans hfits hsize) hpointer
  rw [hwalk] at hreadout
  cases hreadout
  rw [hhead] at hpointer hgives ⊢
  exact ⟨c, word, hbits, htext, hdecodable, hends, hfits, hpointer, walk, rfl, hgives⟩

/-! ## The whole payload -/

/-- How much of the block has been read where the reading of a payload stopped. -/
def Stopped (blockSize : Nat) (b : BlockText) (p : Payload) : Option Readout → Prop
  | none => b.Served blockSize p
  | some readout => b.Completed blockSize readout

/-- A payload that is read for as long as there are bits has read more of the block, or all of
it. -/
theorem Served.run {result : Option Readout} (h : b.Served blockSize p)
    (hsize : blockSize ≤ 2 ^ 24) (hrun : p.run r = .ok result (after, next)) :
    ∃ (c : BlockText) (word : List Bool), r.bits = word ++ next.bits ∧
      c.wordBits = b.wordBits ++ word ∧ c.Stopped blockSize after result := by
  fun_induction Payload.run p r generalizing b with
  | case1 => cases hrun
  | case2 => cases hrun
  | case3 p r _ mid last hstep readout hreadout =>
    cases hrun
    exact h.step_end hsize hstep hreadout
  | case4 p r _ mid last hstep ih =>
    obtain ⟨b', front, hfront, htext, hserved⟩ := h.step hstep
    obtain ⟨c, back, hback, htext', hresult⟩ := ih hserved hrun
    exact ⟨c, front ++ back, by rw [hfront, hback, List.append_assoc],
      by rw [htext', htext, List.append_assoc], hresult⟩
  | case5 p r =>
    cases hrun
    exact ⟨b, [], rfl, (List.append_nil _).symm, h⟩

end BlockText

end Bunzip.Stream
