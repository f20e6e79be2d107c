import Mathlib
import Bunzip.Proofs.Block.Rotations
import Bunzip.Proofs.Block.Tokens
import Bunzip.Proofs.Huffman.Kraft
import Bunzip.Proofs.Randomiser
import Bunzip.Proofs.Stream.Reading
import Bunzip.Stream.Encoding

/-!
# Decoding undoes encoding

Whatever the format lets a writer choose, the text that is written for some data is valid
(`BlockText.valid_ofData`) and means the data (`BlockText.data_ofData`). So a decompressor that is
given the stream of some blocks gives the blocks back, and then the end of the stream
(`StreamText.drain_ofData`).
-/

namespace Bunzip.Stream

open Huffman Block

namespace BlockText

variable {c : Choices} {data column : List UInt8} {blockSize : Nat}

/-! ## Columns -/

theorem mem_usedOf {byte : UInt8} : byte ∈ usedOf column ↔ byte ∈ column := by
  rw [usedOf, List.mem_filter, List.contains_iff_mem]
  refine ⟨fun h => h.2, fun h => ⟨?_, h⟩⟩
  refine List.mem_map.2 ⟨byte.toNat, List.mem_range.2 byte.toNat_lt, ?_⟩
  exact UInt8.ofNat_toNat

theorem used_ofData (c : Choices) (data : List UInt8) :
    (ofData c data).used = usedOf (columnOf c.randomised data) :=
  UsedMap.decode_encode _

theorem usedOf_ne_nil (h : column ≠ []) : usedOf column ≠ [] := by
  obtain ⟨byte, rest, rfl⟩ := List.exists_cons_of_ne_nil h
  exact List.ne_nil_of_mem (mem_usedOf.2 List.mem_cons_self)

theorem symbolsOf_eq (h : column ≠ []) :
    ∃ front, symbolsOf column = front ++ [(usedOf column).length + 1] ∧
      front.length ≤ column.length ∧ ∀ symbol ∈ front, symbol ≤ (usedOf column).length :=
  Token.symbols_ofBytes (usedOf_ne_nil h) fun _ => mem_usedOf.2

theorem expand_symbolsOf (h : column ≠ []) :
    Token.expand (usedOf column) ((symbolsOf column).map (Token.ofSymbol (usedOf column).length)) =
      column :=
  Token.expand_symbols (usedOf_ne_nil h) fun _ => mem_usedOf.2

theorem length_columnOf (randomised : Bool) (data : List UInt8) :
    (columnOf randomised data).length = (RunLength.encode data).length := by
  rw [columnOf, Rotations.length_lastColumn, prepared, length_masked]

theorem columnOf_ne_nil (randomised : Bool) (h : data ≠ []) : columnOf randomised data ≠ [] := by
  obtain ⟨byte, rest, rfl⟩ := List.exists_cons_of_ne_nil h
  rw [← List.length_pos_iff, length_columnOf, RunLength.encode, List.length_append]
  have hrun : 0 < (RunLength.encodeRun byte (RunLength.followers byte rest + 1)).length := by
    unfold RunLength.encodeRun
    split <;> simp
  omega

theorem column_ofData (c : Choices) (h : data ≠ []) :
    (ofData c data).column = columnOf c.randomised data := by
  have hcolumn := expand_symbolsOf (columnOf_ne_nil c.randomised h)
  rw [← used_ofData] at hcolumn
  exact hcolumn

/-- The text of a block means its data. -/
theorem data_ofData (h : Admissible c data) (hne : data ≠ []) : (ofData c data).data = data := by
  have hunsort := Rotations.unsort_lastColumn h.pointer_eq
  rw [BlockText.data, column_ofData c hne]
  show RunLength.decode none 0 (masked c.randomised
    (Rotations.unsort (Rotations.lastColumn (prepared c.randomised data)) c.pointer)) = data
  rw [hunsort, prepared, masked_masked, RunLength.decode_encode]

/-! ## Groups and tables -/

theorem mem_tableOrder (h : Admissible c data) (group : Nat) :
    UInt8.ofNat (c.table group) ∈ (List.range c.lengths.length).map UInt8.ofNat :=
  List.mem_map_of_mem (List.mem_range.2 (h.table_lt group))

theorem selectors_ofData (h : Admissible c data) : (ofData c data).selectors =
    (List.range (groupCount (ofData c data).symbols.length)).map c.table := by
  have hmax : c.lengths.length ≤ 6 := h.tables_le
  have hbyte : (UInt8.toNat ∘ UInt8.ofNat) ∘ c.table = c.table := by
    funext group
    have := h.table_lt group
    rw [Function.comp_apply, Function.comp_apply, UInt8.toNat_ofNat',
      Nat.mod_eq_of_lt (show c.table group < 2 ^ 8 by omega)]
  have htables : (ofData c data).tables.length = c.lengths.length := List.length_map _
  rw [selectors, htables]
  show (MoveToFront.decode _ (MoveToFront.encode _
    (((List.range (groupCount (ofData c data).symbols.length)).map c.table).map UInt8.ofNat))).map
      UInt8.toNat = _
  rw [MoveToFront.decode_encode, List.map_map, List.map_map, hbyte]
  intro byte hmem
  obtain ⟨table, htable, rfl⟩ := List.mem_map.1 hmem
  obtain ⟨group, -, rfl⟩ := List.mem_map.1 htable
  exact mem_tableOrder h group

theorem le_groupCount (symbols : Nat) : symbols ≤ Format.groupSize * groupCount symbols := by
  unfold groupCount Format.groupSize
  omega

/-- The code lengths that serve a symbol are those of a table that was written. -/
theorem lengthsAt_ofData (h : Admissible c data) {index : Nat}
    (hindex : index < (ofData c data).symbols.length) :
    ∃ lengths ∈ c.lengths, (ofData c data).lengthsAt index = lengths := by
  have hgroup : index / Format.groupSize < groupCount (ofData c data).symbols.length :=
    Nat.div_lt_of_lt_mul (Nat.lt_of_lt_of_le hindex (le_groupCount _))
  have hlt := h.table_lt (index / Format.groupSize)
  have hselector : (ofData c data).selectors[index / Format.groupSize]? =
      some (c.table (index / Format.groupSize)) := by
    rw [selectors_ofData h, List.getElem?_map, List.getElem?_range hgroup]
    rfl
  have htable : (ofData c data).tables[c.table (index / Format.groupSize)]? =
      some (LengthText.ofLengths c.lengths[c.table (index / Format.groupSize)]) := by
    show (c.lengths.map LengthText.ofLengths)[_]? = _
    rw [List.getElem?_map, List.getElem?_eq_getElem hlt]
    rfl
  refine ⟨_, List.getElem_mem hlt, ?_⟩
  simp only [lengthsAt, List.getD_eq_getElem?_getD, hselector, htable, Option.getD_some,
    LengthText.toNat_ofLengths]

/-! ## Validity -/

theorem symbols_ofData (c : Choices) (hne : data ≠ []) :
    ∃ front, (ofData c data).symbols = front ++ [(ofData c data).used.length + 1] ∧
      front.length ≤ (RunLength.encode data).length ∧
      ∀ symbol ∈ front, symbol ≤ (ofData c data).used.length := by
  rw [used_ofData, ← length_columnOf c.randomised data]
  exact symbolsOf_eq (columnOf_ne_nil c.randomised hne)

theorem resolves_ofData (h : Admissible c data) (hne : data ≠ []) {symbol index : Nat}
    (hmem : (symbol, index) ∈ (ofData c data).symbols.zipIdx) :
    ∃ word, Canonical.codeWord? ((ofData c data).lengthsAt index) symbol = some word ∧
      Canonical.Begins ((ofData c data).lengthsAt index) word symbol := by
  obtain ⟨front, hsymbols, -, hfront⟩ := symbols_ofData c hne
  obtain ⟨lengths, hlengths, hat⟩ := lengthsAt_ofData h (List.snd_lt_of_mem_zipIdx hmem)
  have hsymbol : symbol < lengths.length := by
    rw [h.length_lengths lengths hlengths, ← used_ofData]
    have hin : symbol ∈ (ofData c data).symbols := List.fst_mem_of_mem_zipIdx hmem
    rw [hsymbols] at hin
    rcases List.mem_append.1 hin with hin | hin
    · exact Nat.lt_succ_of_lt (Nat.lt_succ_of_le (hfront symbol hin))
    · rw [List.mem_singleton.1 hin]
      exact Nat.lt_succ_self _
  have hle : lengths[symbol] ≤ 20 :=
    (h.lengths_mem lengths hlengths _ (List.getElem_mem hsymbol)).2
  obtain ⟨word, hword⟩ := Canonical.codeWord?_of_fits (h.fits lengths hlengths)
    (List.getElem?_eq_getElem hsymbol) hle
  rw [hat]
  exact ⟨word, hword, Canonical.begins_of_codeWord? hword⟩

theorem length_positions_ofData (c : Choices) (data : List UInt8) :
    (ofData c data).positions.length = groupCount (ofData c data).symbols.length := by
  show (MoveToFront.encode _ ((List.map _ (List.range _)).map _)).length = _
  rw [MoveToFront.length_encode, List.length_map, List.length_map, List.length_range]
  rfl

theorem positions_lt_ofData (h : Admissible c data) {position : Nat}
    (hposition : position ∈ (ofData c data).positions) : position < (ofData c data).tables.length := by
  have hlt := MoveToFront.lt_of_mem_encode (fun byte hbyte => by
    obtain ⟨table, htable, rfl⟩ := List.mem_map.1 hbyte
    obtain ⟨group, -, rfl⟩ := List.mem_map.1 htable
    exact mem_tableOrder h group) hposition
  have htables : (ofData c data).tables.length = c.lengths.length := List.length_map _
  rwa [List.length_map, List.length_range, ← htables] at hlt

theorem tables_valid_ofData (h : Admissible c data) {t : LengthText}
    (ht : t ∈ (ofData c data).tables) : ValidTable (ofData c data).alphabet t := by
  have halphabet : (ofData c data).alphabet = (usedOf (columnOf c.randomised data)).length + 2 := by
    rw [alphabet, used_ofData]
  obtain ⟨lengths, hlengths, rfl⟩ := List.mem_map.1 ht
  rw [halphabet]
  refine LengthText.validTable_ofLengths (h.length_lengths lengths hlengths) ?_
    (h.lengths_mem lengths hlengths)
  rw [← used_ofData]
  exact Nat.add_le_add_right (UsedMap.length_decode_le _ _) 2

/-- A block that is written for admissible choices keeps the rules of the format. -/
theorem valid_ofData (h : Admissible c data) (hne : data ≠ [])
    (hlength : (RunLength.encode data).length ≤ blockSize)
    (hsize : blockSize ≤ 9 * Format.blockUnit) : (ofData c data).Valid blockSize := by
  have hcolumn := column_ofData c hne
  have hcolumnLength := length_columnOf c.randomised data
  have htables : (ofData c data).tables.length = c.lengths.length := List.length_map _
  obtain ⟨front, hsymbols, hfrontLength, hfront⟩ := symbols_ofData c hne
  have hcount : (ofData c data).symbols.length = front.length + 1 := by
    rw [hsymbols, List.length_append, List.length_singleton]
  have hpositions := length_positions_ofData c data
  have hunit : Format.blockUnit = 100000 := rfl
  exact {
    length_bitmaps := List.length_map _
    used_ne_nil := by
      rw [used_ofData]
      exact usedOf_ne_nil (columnOf_ne_nil c.randomised hne)
    tables_ge := by rw [htables]; exact h.tables_ge
    tables_le := by rw [htables]; exact h.tables_le
    selectors_ge := by
      rw [hpositions, hcount, groupCount, Format.groupSize]
      omega
    selectors_le := by
      rw [hpositions, hcount, groupCount, Format.maxSelectors, Format.groupSize]
      omega
    positions_lt := fun position hposition => positions_lt_ofData h hposition
    tables_valid := fun t ht => tables_valid_ofData h ht
    ends := by
      refine ⟨front, hsymbols, fun hmem => ?_⟩
      have := hfront _ hmem
      omega
    selectors_suffice := by
      rw [hpositions]
      exact le_groupCount _
    resolves := fun symbol index hmem => resolves_ofData h hne hmem
    column_le := by rw [hcolumn, hcolumnLength]; exact hlength
    pointer_lt_column := by
      have hrow := (List.getElem?_eq_some_iff.1 h.pointer_eq).1
      rw [hcolumn, columnOf, Rotations.length_lastColumn]
      rwa [Rotations.length_sorted] at hrow
    stored_eq := by rw [data_ofData h hne]; rfl }

end BlockText

/-! ## Streams -/

namespace StreamText

/-- A decompressor that is given the stream of some blocks gives them back, whatever was chosen for
them and whatever follows the stream. -/
theorem drain_ofData {digit : Nat} {blocks : List (Choices × List UInt8)}
    (hdigit : 1 ≤ digit ∧ digit ≤ 9)
    (h : ∀ c data, (c, data) ∈ blocks → data ≠ [] ∧
      (RunLength.encode data).length ≤ digit * Format.blockUnit ∧ BlockText.Admissible c data)
    (trailing : List UInt8) :
    (Decompressor.start.drain ((ofData digit blocks).bytes ++ trailing)).map (·.result) =
      (blocks.map fun (_, data) => .ok (.block data.toArray)) ++ [.ok .endOfStream] := by
  have hvalid : (ofData digit blocks).Valid := by
    refine ⟨hdigit.1, hdigit.2, fun b hb => ?_⟩
    obtain ⟨⟨c, data⟩, hmem, rfl⟩ := List.mem_map.1 hb
    obtain ⟨hne, hlength, hadmissible⟩ := h c data hmem
    exact BlockText.valid_ofData hadmissible hne hlength (Nat.mul_le_mul_right _ hdigit.2)
  rw [drain_bytes hvalid]
  congr 1
  show (blocks.map fun (c, data) => BlockText.ofData c data).map _ = _
  rw [List.map_map]
  refine List.map_congr_left fun ⟨c, data⟩ hmem => ?_
  obtain ⟨hne, -, hadmissible⟩ := h c data hmem
  simp only [Function.comp_apply, BlockText.data_ofData hadmissible hne]

set_option maxRecDepth 2000 in
/-- A run that is cut short, and a randomised block. -/
theorem drain_ofData_two :
    (Decompressor.start.drain ((ofData 1
      [(⟨false, 4, [[2, 2, 2, 2], [1, 2, 3, 3]], fun group => group % 2⟩, [97, 97, 97, 97, 97]),
        (⟨true, 0, [[1, 2, 2], [2, 2, 1]], fun _ => 1⟩, [98])]).bytes ++ [0])).map (·.result) =
      [.ok (.block #[97, 97, 97, 97, 97]), .ok (.block #[98]), .ok .endOfStream] := by
  have hplain : (BlockText.usedOf (BlockText.columnOf false [97, 97, 97, 97, 97])).length = 2 := by
    have hcolumn : BlockText.columnOf false [97, 97, 97, 97, 97] = [97, 97, 97, 97, 1] := by cbv
    rw [hcolumn]
    decide +kernel
  have hplainRow : (Rotations.sorted (BlockText.prepared false [97, 97, 97, 97, 97]))[4]? =
      some (BlockText.prepared false [97, 97, 97, 97, 97]) := by cbv
  have hrandomised : (BlockText.usedOf (BlockText.columnOf true [98])).length = 1 := by
    have hcolumn : BlockText.columnOf true [98] = [98] := by cbv
    rw [hcolumn]
    decide +kernel
  have hrandomisedRow : (Rotations.sorted (BlockText.prepared true [98]))[0]? =
      some (BlockText.prepared true [98]) := by cbv
  refine drain_ofData (by decide) (fun c data hmem => ?_) [0]
  simp only [List.mem_cons, List.not_mem_nil, or_false, Prod.mk.injEq] at hmem
  rcases hmem with ⟨rfl, rfl⟩ | ⟨rfl, rfl⟩
  · exact ⟨by decide, by decide +kernel, hplainRow, by decide, by decide, by rw [hplain]; decide,
      by decide, by decide, fun group => Nat.mod_lt group Nat.two_pos⟩
  · exact ⟨by decide, by decide +kernel, hrandomisedRow, by decide, by decide,
      by rw [hrandomised]; decide, by decide, by decide, fun _ => Nat.one_lt_two⟩

end StreamText

end Bunzip.Stream
