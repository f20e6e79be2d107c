import Bunzip.Proofs.Stream.CodeLengths
import Bunzip.Proofs.Stream.Passage
import Mathlib.Data.List.Find

/-!
# The code tables of a block

The first code length outside the limits is refused where it is stored, and nothing behind it counts
(`Field.refuses_tables`). If there is none, all are stored as they are written, and the payload
begins with the bits behind them. Both hold however the bits of the tables are spread over chunks
(`Decompressor.reads_tables`).
-/

namespace Bunzip.Stream

open Scan Huffman

namespace LengthText

/-- A code length that no symbol has. -/
def outside (length : Int) : Bool := decide (length < 1 ∨ Format.maxCodeLength < length)

theorem outside_eq_false {length : Int} :
    outside length = false ↔ 1 ≤ length ∧ length ≤ Format.maxCodeLength := by
  unfold outside
  rw [decide_eq_false_iff_not]
  omega

/-- With few steps the stored words are outside the limits where the lengths are. -/
theorem find?_outside_wrapped {tables : List LengthText}
    (h : ∀ t ∈ tables, t.start < 32 ∧ t.steps.flatten.length < 2 ^ 30) :
    (tables.flatMap lengths).find? (fun length => outside (wrapped length)) =
      (tables.flatMap lengths).find? outside := by
  apply List.find?_congr
  intro length hlength
  obtain ⟨t, ht, hmem⟩ := List.mem_flatMap.1 hlength
  rw [wrapped_of_mem (h t ht).1 (h t ht).2 length hmem]

end LengthText

open LengthText

namespace Field

variable {setup : Setup} {done : List (List Nat)} {v : Int}

/-- Code lengths within the limits are stored as they are written, and the payload begins with their
tables. -/
theorem stores_tables (blockSize : Nat) (streamCrc : UInt32) (head : Block.Head)
    (used : List UInt8) {tables : List LengthText} (h : setup.Filled [])
    (htables : setup.tables = tables.length) (hpos : 0 < setup.tables)
    (hmax : setup.tables ≤ Format.maxTables) (hsymbols : 0 < setup.alphabet)
    (halphabet : setup.alphabet ≤ Format.maxAlphabet)
    (hvalid : ∀ t ∈ tables, BlockText.ValidTable setup.alphabet t) :
    ∃ (after : Setup) (decoder : Decoder), after.decoder = .ok decoder ∧
      after.selectors = setup.selectors ∧
      (List.range setup.tables).map after.tableLengths =
        tables.map (fun t => t.lengths.map Int.toNat) ∧
      State.Spells ⟨.field (.codeLength ⟨head, used, setup⟩ ⟨0, none⟩), blockSize, streamCrc⟩
        (tables.flatMap LengthText.bits)
        (.ok ⟨.payload (Block.Payload.start blockSize head used decoder), blockSize, streamCrc⟩) := by
  have hne : tables ≠ [] := by
    intro hnil
    rw [hnil, List.length_nil] at htables
    omega
  obtain ⟨after, hfilled, hatables, haalphabet, hselectors, hspells⟩ :=
    spells_tables blockSize streamCrc head used h (htables.trans (Nat.zero_add _).symm) hmax hsymbols
      halphabet hne fun t ht => (hvalid t ht).readable
  have hstored : tables.map LengthText.stored = tables.map fun t => t.lengths.map Int.toNat :=
    List.map_congr_left fun t ht => (hvalid t ht).stored_eq
  rw [List.nil_append, hstored] at hfilled
  have hlength : (tables.map fun t => t.lengths.map Int.toNat).length = after.tables := by
    rw [List.length_map, hatables, htables]
  have hrows : ∀ lengths ∈ tables.map fun t => t.lengths.map Int.toNat,
      lengths.length = after.alphabet := by
    intro lengths hmem
    obtain ⟨t, ht, rfl⟩ := List.mem_map.1 hmem
    rw [List.length_map, LengthText.lengths, length_running, (hvalid t ht).readable.length_steps,
      haalphabet]
  have hdecoder := hfilled.decoder_eq hlength.symm (by omega) (by omega) hrows
  rw [hdecoder] at hspells
  refine ⟨after, _, hdecoder, hselectors, ?_, hspells⟩
  apply List.ext_getElem
  · rw [List.length_map, List.length_range, hlength, hatables]
  · intro table htable htable'
    rw [List.getElem_map, List.getElem_range]
    exact hfilled.tableLengths_eq (by omega) htable' (hrows _ (List.getElem_mem htable'))

/-! ## Refused lengths -/

theorem storeLength_of_outside (blockSize : Nat) (draft : Draft) (table symbol : Nat)
    (h : outside (wrapped v) = true) :
    storeLength blockSize draft table symbol (Int32.ofInt v) =
      .error (.stream (.invalidCodeLength (Int32.ofInt v))) := by
  have hlimits : ¬ (1 ≤ wrapped v ∧ wrapped v ≤ Format.maxCodeLength) := by
    intro hinside
    rw [outside_eq_false.2 hinside] at h
    cases h
  obtain ⟨head, used, setup⟩ := draft
  rw [storeLength, Setup.setLength_of_outside table symbol hlimits]
  rfl

/-- The rest of the code lengths of a table, up to the first that is refused. -/
theorem refuses_lengths (blockSize : Nat) (streamCrc : UInt32) (head : Block.Head)
    (used : List UInt8) {current : List Nat} {length : Int} {steps : List (List Bool)}
    (h : setup.Filled (done ++ [current])) (hdone : done.length < Format.maxTables)
    (halphabet : setup.alphabet ≤ Format.maxAlphabet)
    (hlength : current.length + steps.length = setup.alphabet)
    (hfind : (running length steps).find? (fun length => outside (wrapped length)) = some v) :
    ∃ word behind, steps.flatMap stepBits = word ++ behind ∧
      State.Spells
        ⟨.field (.codeLength ⟨head, used, setup⟩
          ⟨done.length, some ⟨Int32.ofInt length, current.length, false⟩⟩), blockSize, streamCrc⟩
        word (.error (.stream (.invalidCodeLength (Int32.ofInt v)))) := by
  induction steps generalizing setup current length with
  | nil => cases hfind
  | cons first steps ih =>
    rw [List.length_cons] at hlength
    rw [running_cons, List.find?_cons] at hfind
    have hfirst := spells_stepBits blockSize streamCrc ⟨head, used, setup⟩ length first
      done.length current.length
    rw [List.flatMap_cons]
    cases hout : outside (wrapped (stepped length first)) with
    | true =>
      simp only [hout, Option.some.injEq] at hfind
      subst hfind
      rw [storeLength_of_outside _ _ _ _ hout] at hfirst
      exact ⟨_, _, rfl, hfirst⟩
    | false =>
      simp only [hout] at hfind
      -- the refused length is behind this one, so the table goes on
      have hne : 0 < steps.length := by
        cases steps with
        | nil => cases hfind
        | cons => exact Nat.zero_lt_succ _
      obtain ⟨mid, hset, hmid, -, halphabet', -⟩ :=
        h.setLength hdone (show current.length < Format.maxAlphabet by omega)
          (outside_eq_false.1 hout)
      rw [← wrapped] at hmid
      rw [storeLength_eq hset,
        afterLength_of_lt ⟨head, used, mid⟩ (show current.length + 1 < mid.alphabet by omega)]
        at hfirst
      have hcurrent : (current ++ [(wrapped (stepped length first)).toNat]).length =
          current.length + 1 := List.length_append
      obtain ⟨word, behind, hword, hrest⟩ := ih hmid (by omega) (by omega) hfind
      rw [hcurrent] at hrest
      exact ⟨stepBits first ++ word, behind, by rw [hword, List.append_assoc],
        hfirst.trans hrest⟩

/-- The code lengths of a table, up to the first that is refused. -/
theorem refuses_table (blockSize : Nat) (streamCrc : UInt32) (head : Block.Head)
    (used : List UInt8) {t : LengthText} (h : setup.Filled done)
    (hdone : done.length < Format.maxTables) (halphabet : setup.alphabet ≤ Format.maxAlphabet)
    (hstart : t.start < 32) (hsteps : t.steps.length = setup.alphabet)
    (hfind : t.lengths.find? (fun length => outside (wrapped length)) = some v) :
    ∃ word behind, t.bits = word ++ behind ∧
      State.Spells ⟨.field (.codeLength ⟨head, used, setup⟩ ⟨done.length, none⟩), blockSize,
        streamCrc⟩ word (.error (.stream (.invalidCodeLength (Int32.ofInt v)))) := by
  obtain ⟨word, behind, hword, hrest⟩ := refuses_lengths blockSize streamCrc head used h.append_nil
    hdone halphabet ((Nat.zero_add _).trans hsteps) hfind
  exact ⟨Bits.ofNat 5 t.start ++ word, behind, by rw [LengthText.bits, hword, List.append_assoc],
    (spells_start blockSize streamCrc _ done.length hstart).trans hrest⟩

/-- The code lengths of the tables, up to the first that is refused. -/
theorem refuses_tables (blockSize : Nat) (streamCrc : UInt32) (head : Block.Head)
    (used : List UInt8) {tables : List LengthText} (h : setup.Filled done)
    (htables : setup.tables = done.length + tables.length)
    (hmax : setup.tables ≤ Format.maxTables) (hpos : 0 < setup.alphabet)
    (halphabet : setup.alphabet ≤ Format.maxAlphabet)
    (htexts : ∀ t ∈ tables, t.start < 32 ∧ t.steps.length = setup.alphabet)
    (hfind : (tables.flatMap LengthText.lengths).find? (fun length => outside (wrapped length)) =
      some v) :
    ∃ word behind, tables.flatMap LengthText.bits = word ++ behind ∧
      State.Spells ⟨.field (.codeLength ⟨head, used, setup⟩ ⟨done.length, none⟩), blockSize,
        streamCrc⟩ word (.error (.stream (.invalidCodeLength (Int32.ofInt v)))) := by
  induction tables generalizing setup done with
  | nil => cases hfind
  | cons t tables ih =>
    obtain ⟨hstart, hsteps⟩ := htexts t List.mem_cons_self
    rw [List.length_cons] at htables
    rw [List.flatMap_cons, List.find?_append] at hfind
    rw [List.flatMap_cons]
    cases hfirst : t.lengths.find? (fun length => outside (wrapped length)) with
    | some first =>
      rw [hfirst, Option.some_or, Option.some.injEq] at hfind
      subst hfind
      obtain ⟨word, behind, hword, hrefuses⟩ := refuses_table blockSize streamCrc head used h
        (by omega) halphabet hstart hsteps hfirst
      exact ⟨word, behind ++ tables.flatMap LengthText.bits,
        by rw [hword, List.append_assoc], hrefuses⟩
    | none =>
      rw [hfirst, Option.none_or] at hfind
      have hreadable : BlockText.ReadableTable setup.alphabet t := by
        refine ⟨hstart, hsteps, fun length hlength => ?_⟩
        have := List.find?_eq_none.1 hfirst length hlength
        exact outside_eq_false.1 (Bool.eq_false_iff.2 this)
      have hmore : 0 < tables.length := by
        cases tables with
        | nil => cases hfind
        | cons => exact Nat.zero_lt_succ _
      obtain ⟨mid, hmid, hmtables, hmalphabet, -, hreads⟩ :=
        spells_table blockSize streamCrc head used h (by omega) hpos halphabet hreadable
      have hcount : (done ++ [t.stored]).length = done.length + 1 := List.length_append
      rw [afterTable, if_pos (show done.length + 1 < mid.tables by omega), ← hcount] at hreads
      obtain ⟨word, behind, hword, hrest⟩ := ih hmid (by omega) (by omega) (by omega) (by omega)
        (fun t ht => by
          rw [hmalphabet]
          exact htexts t (List.mem_cons_of_mem _ ht)) hfind
      exact ⟨t.bits ++ word, behind, by rw [hword, List.append_assoc], hreads.trans hrest⟩

end Field

/-! ## Tables in chunks -/

namespace Decompressor

variable {d : Decompressor}

/-- Code tables that begin in some call, in whatever chunks the bits come, with fewer than `2 ^ 30`
steps in each table. If all code lengths are within the limits they are stored, and the payload
begins with exactly the bits behind them; otherwise the call that brings the first one outside of
the limits is refused for it. -/
theorem reads_tables {first : List UInt8} {chunks : List (List UInt8)} {head : Block.Head}
    {used : List UInt8} {setup : Setup} {blockSize : Nat} {streamCrc : UInt32} {r : BitReader}
    {tables : List LengthText} {rest : List Bool}
    (hpasses : d.Passes first
      (.field (.codeLength ⟨head, used, setup⟩ ⟨0, none⟩) blockSize streamCrc r))
    (hsetup : setup.Filled []) (hpos : 0 < setup.tables) (hmax : setup.tables ≤ Format.maxTables)
    (hsymbols : 0 < setup.alphabet) (halphabet : setup.alphabet ≤ Format.maxAlphabet)
    (hcount : tables.length = setup.tables)
    (htexts : ∀ t ∈ tables, t.start < 32 ∧ t.steps.length = setup.alphabet ∧
      t.steps.flatten.length < 2 ^ 30)
    (hbits : r.bits ++ Bits.ofBytes chunks.flatten = tables.flatMap LengthText.bits ++ rest) :
    ((∀ t ∈ tables, ∀ length ∈ t.lengths, 1 ≤ length ∧ length ≤ Format.maxCodeLength) →
      ∃ (after : Setup) (decoder : Decoder) (r' : BitReader) (back : List (List UInt8)),
        d.Comes (first :: chunks)
          (.symbol (Block.Payload.start blockSize head used decoder) r') back ∧
        r'.bits ++ Bits.ofBytes back.flatten = rest ∧
        after.decoder = .ok decoder ∧ after.selectors = setup.selectors ∧
        (List.range setup.tables).map after.tableLengths =
          tables.map fun t => t.lengths.map Int.toNat) ∧
    ∀ v, (tables.flatMap LengthText.lengths).find? outside = some v →
      (Int32.ofInt v).toInt = v ∧ ∃ front chunk back, first :: chunks = front ++ chunk :: back ∧
        (∀ call ∈ d.calls front, call.result = .ok .suspended) ∧
        ((d.after (d.calls front)).decompress chunk).result =
          .error (.stream (.invalidCodeLength (Int32.ofInt v))) := by
  have hfew : ∀ t ∈ tables, t.start < 32 ∧ t.steps.flatten.length < 2 ^ 30 := fun t ht =>
    ⟨(htexts t ht).1, (htexts t ht).2.2⟩
  have htotal : setup.tables = ([] : List (List Nat)).length + tables.length := by
    rw [hcount, List.length_nil, Nat.zero_add]
  refine ⟨fun hinside => ?_, fun v hfind => ⟨?_, ?_⟩⟩
  · obtain ⟨after, decoder, hdecoder, hselectors, hstored, hspells⟩ :=
      Field.stores_tables blockSize streamCrc head used hsetup hcount.symm hpos hmax hsymbols
        halphabet fun t ht => ⟨(htexts t ht).1, (htexts t ht).2.1, (htexts t ht).2.2, hinside t ht⟩
    obtain ⟨r', back, next, hnext, hpath, hrest⟩ :=
      hspells.path (fun r => ⟨_, rfl⟩) hbits rfl
    cases hnext
    exact ⟨after, decoder, r', back, (hpasses.comes chunks).path hpath, hrest, hdecoder, hselectors,
      hstored⟩
  · obtain ⟨t, ht, hmem⟩ := List.mem_flatMap.1 (List.mem_of_find?_eq_some hfind)
    exact wrapped_of_mem (hfew t ht).1 (hfew t ht).2 v hmem
  · rw [← find?_outside_wrapped hfew] at hfind
    obtain ⟨word, behind, hword, hspells⟩ :=
      Field.refuses_tables blockSize streamCrc head used hsetup htotal hmax hsymbols halphabet
        (fun t ht => ⟨(htexts t ht).1, (htexts t ht).2.1⟩) hfind
    rw [hword, List.append_assoc] at hbits
    obtain ⟨field, size, crc, r', back, hpath, hfails⟩ := hspells.fault_path hbits rfl
    obtain ⟨front, chunk, hchunks, hfront, hplace⟩ := (hpasses.comes chunks).path hpath
    exact ⟨front, chunk, back, hchunks, hfront, hplace.failed hfails⟩

/-- Two tables of three symbols, one with a detour below zero, in three chunks. -/
theorem reads_tables_two :
    ∃ (after : Setup) (decoder : Decoder) (r' : BitReader) (back : List (List UInt8)),
      Comes ⟨⟨.field (.codeLength ⟨⟨0, false, 0⟩, [97], (Setup.start 2 3).setSelectorCount 1⟩
          ⟨0, none⟩), 100000, 0⟩, BitState.empty⟩ [[], [0x12, 0xc0], [0xfd, 0x23]]
        (.symbol (Block.Payload.start 100000 ⟨0, false, 0⟩ [97] decoder) r') back ∧
      r'.bits ++ Bits.ofBytes back.flatten = [true, true] ∧
      after.decoder = .ok decoder ∧ after.selectors = #[0] ∧
      (List.range 2).map after.tableLengths = [[2, 2, 2], [1, 2, 2]] := by
  have hpasses : Passes ⟨⟨.field (.codeLength ⟨⟨0, false, 0⟩, [97],
      (Setup.start 2 3).setSelectorCount 1⟩ ⟨0, none⟩), 100000, 0⟩, BitState.empty⟩ []
      (.field (.codeLength ⟨⟨0, false, 0⟩, [97], (Setup.start 2 3).setSelectorCount 1⟩ ⟨0, none⟩)
        100000 0 (BitReader.bind BitState.empty [])) := ⟨_, rfl, .refl⟩
  have hsetup : ((Setup.start 2 3).setSelectorCount 1).Filled [] :=
    (Setup.filled_start 2 3).congr rfl
  have hbits : (BitReader.bind BitState.empty []).bits ++
      Bits.ofBytes [[0x12, 0xc0], [0xfd, 0x23]].flatten =
        [(⟨2, [[], [false, true], []]⟩ : LengthText),
          ⟨1, [[true, true, false, false], [false], []]⟩].flatMap LengthText.bits ++
            [true, true] := by decide
  have htables := reads_tables hpasses hsetup (by decide) (by decide) (by decide) (by decide)
    (by rfl) (by decide) hbits
  exact htables.1 (by decide)

end Decompressor

end Bunzip.Stream
