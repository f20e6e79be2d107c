import Bunzip.Proofs.Block.Ranges
import Bunzip.Proofs.Huffman.Ranges
import Bunzip.Proofs.Stream.Coverage
import Bunzip.Proofs.Stream.History

/-!
# The faults of a stream

At each place that a call on a stream passes, what has been read is a text so far (`Place.Told`).
This is enough for the parts of the decoder to keep what they promise to each other: the only faults
are those that lie in the data (`Place.Told.atFault`). A code word is at fault only where the bits
of a longest search begin with none, and an alphabet only for having no byte.
-/

namespace Bunzip

/-- The faults that lie in the data, but not in a code word. An alphabet is only at fault for having
no byte, which makes two symbols. -/
def Fault.InData : Fault → Prop
  | .stream (.invalidCode _) => False
  | .stream (.invalidAlphabetSize size) => size = 2
  | .stream _ => True
  | _ => False

namespace Huffman.Setup

variable {setup : Setup} {table symbol : Nat} {length : Int32} {fault : Fault}

theorem fault_of_setLength (htable : table < Format.maxTables)
    (hsymbol : symbol < Format.maxAlphabet) (h : setup.setLength table symbol length = .error fault) :
    fault = .stream (.invalidCodeLength length) := by
  unfold setLength at h
  simp only [if_pos (And.intro htable hsymbol)] at h
  split at h
  · cases h
  · cases h
    rfl

theorem sizes_setLength {after : Setup} (h : setup.setLength table symbol length = .ok after) :
    after.tables = setup.tables ∧ after.alphabet = setup.alphabet := by
  unfold setLength at h
  simp only at h
  split at h
  · split at h
    · cases h
      exact ⟨rfl, rfl⟩
    · cases h
  · cases h

end Huffman.Setup

namespace Stream

open Scan Huffman Block

variable {blockSize : Nat} {streamCrc : UInt32} {fault : Fault}

/-! ## Fields -/

namespace Field

theorem blames_words (count : Nat) : Blames Fault.InData (words count) := by
  induction count with
  | zero => exact blames_pure _
  | succ count ih =>
    exact (blames_number 16).first fun _ => ih.first fun _ => blames_pure _

theorem blames_unary (tables room : Nat) : Blames Fault.InData (unary tables room) := by
  induction room with
  | zero => exact blames_fail trivial
  | succ room ih => exact blames_bit.first fun _ => blames_ite (fun _ => ih) fun _ => blames_pure _

/-- There are at most 256 bytes to use, so an alphabet is never too large. -/
theorem blames_readUsedBitmaps (head : Head) (groups : UInt16) :
    Blames Fault.InData (readUsedBitmaps head groups) := by
  refine (blames_words _).first fun bitmaps => (blames_number 3).first fun tables => ?_
  refine blames_ite (fun _ => blames_fail trivial) fun _ =>
    blames_ite (fun halphabet => ?_) fun _ => blames_pure _
  refine blames_fail (show (UsedMap.decode groups bitmaps).length + 2 = 2 from ?_)
  have hused := UsedMap.length_decode_le groups bitmaps
  unfold Format.minAlphabet Format.maxAlphabet at halphabet
  omega

theorem blames_readSelector {draft : Draft} {index : Nat} {begun : List Bool}
    (h : (Phase.field (.selector draft index)).Begun blockSize begun) :
    Blames Fault.InData (readSelector draft index) := by
  obtain ⟨b, tables, count, hselected, rfl, hindex, rfl⟩ := h
  obtain ⟨head, used, setup⟩ := draft
  refine (blames_unary _ _).bind fun r position next hposition => ?_
  obtain ⟨-, -, other, hlt, hother, -⟩ := tells_unary (Nat.le_refl _) _ _ _ hposition
  obtain rfl : position = other := by omega
  obtain ⟨after, hafter, -⟩ := hselected.push (hselected.tables_eq ▸ hlt) hindex
  rw [hafter]
  exact (blames_pure after).first fun _ =>
    blames_ite (fun _ => blames_pure _) fun _ => blames_pure _

theorem afterLength_ne_error {draft : Draft} {table symbol : Nat} {length : Int32}
    (htables : draft.setup.tables ≤ Format.maxTables)
    (halphabet : draft.setup.alphabet ≤ Format.maxAlphabet) :
    afterLength blockSize draft table symbol length ≠ .error fault := by
  obtain ⟨decoder, hdecoder⟩ : ∃ decoder, draft.setup.decoder = .ok decoder :=
    ⟨_, if_pos ⟨htables, .inr halphabet⟩⟩
  intro h
  unfold afterLength at h
  split at h
  · cases h
  split at h
  · cases h
  · rw [hdecoder] at h
    cases h

theorem inData_of_storeLength {draft : Draft} {table symbol : Nat} {length : Int32}
    (htables : draft.setup.tables ≤ Format.maxTables)
    (halphabet : draft.setup.alphabet ≤ Format.maxAlphabet) (htable : table < draft.setup.tables)
    (hsymbol : symbol < draft.setup.alphabet)
    (h : storeLength blockSize draft table symbol length = .error fault) : fault.InData := by
  obtain ⟨head, used, setup⟩ := draft
  cases hset : setup.setLength table symbol length with
  | error other =>
    rw [storeLength, hset] at h
    cases h
    rw [Setup.fault_of_setLength (Nat.lt_of_lt_of_le htable htables)
      (Nat.lt_of_lt_of_le hsymbol halphabet) hset]
    trivial
  | ok after =>
    rw [storeLength, hset] at h
    obtain ⟨htables', halphabet'⟩ := Setup.sizes_setLength hset
    exact absurd h (afterLength_ne_error (htables' ▸ htables) (halphabet' ▸ halphabet))

theorem blames_readCodeLength {draft : Draft} {cursor : LengthCursor} {begun : List Bool}
    (h : (Phase.field (.codeLength draft cursor)).Begun blockSize begun) :
    Blames Fault.InData (readCodeLength blockSize draft cursor) := by
  obtain ⟨table, running⟩ := cursor
  match running with
  | none => exact (blames_number 5).first fun _ => blames_pure _
  | some ⟨length, symbol, true⟩ => exact blames_bit.first fun _ => blames_pure _
  | some ⟨length, symbol, false⟩ =>
    obtain ⟨b, tables, t, now, hmeasured, ht, -, rfl, rfl, -, -⟩ := h
    have hused := UsedMap.length_decode_le b.groups b.bitmaps
    have halphabet : b.alphabet ≤ Format.maxAlphabet := Nat.add_le_add_right hused 2
    refine blames_bit.first fun _ => blames_ite (fun _ => blames_pure _) fun _ => ?_
    exact blames_ofExcept fun fault => inData_of_storeLength
      (hmeasured.tables_eq ▸ hmeasured.tables_le) (hmeasured.alphabet_eq ▸ halphabet)
      (hmeasured.tables_eq ▸ hmeasured.tables_lt) (hmeasured.alphabet_eq ▸ ht.length_steps)

theorem blames_readStreamHeader : Blames Fault.InData readStreamHeader := by
  refine (blames_number 24).first fun _ => blames_ite (fun _ => blames_fail trivial) fun _ => ?_
  exact (blames_number 8).first fun _ =>
    blames_ite (fun _ => blames_fail trivial) fun _ => blames_pure _

theorem blames_readBlockHeader (streamCrc : UInt32) :
    Blames Fault.InData (readBlockHeader streamCrc) := by
  refine (blames_number 48).first fun _ => blames_ite (fun _ => ?_) fun _ =>
    blames_ite (fun _ => ?_) fun _ => blames_fail trivial
  · exact blames_checksum.first fun _ =>
      blames_ite (fun _ => blames_fail trivial) fun _ => blames_pure _
  · exact blames_checksum.first fun _ => blames_pure _

theorem blames_read {field : Field} {blocks : List BlockText} {word : List Bool}
    (h : State.Told ⟨.field field, blockSize, streamCrc⟩ blocks word) :
    Blames Fault.InData (field.read blockSize streamCrc) := by
  have wrap {scan : Scan Phase} (hscan : Blames Fault.InData scan) :
      Blames Fault.InData (do return ⟨← scan, blockSize, streamCrc⟩ : Scan State) :=
    hscan.first fun _ => blames_pure _
  cases h with
  | start => exact blames_readStreamHeader
  | @begun t _ begun ht h =>
    cases field with
    | streamHeader => exact blames_readStreamHeader
    | blockHeader => exact wrap (blames_readBlockHeader _)
    | blockParams =>
      exact wrap (blames_bit.first fun _ => (blames_number 24).first fun _ => blames_pure _)
    | usedGroups => exact wrap ((blames_number 16).first fun _ => blames_pure _)
    | usedBitmaps head groups => exact wrap (blames_readUsedBitmaps head groups)
    | selectorCount =>
      exact wrap ((blames_number 15).first fun _ =>
        blames_ite (fun _ => blames_fail trivial) fun _ => blames_pure _)
    | selector => exact wrap (blames_readSelector h)
    | codeLength => exact wrap (blames_readCodeLength h)

end Field

/-! ## Payloads -/

namespace BlockText

variable {b : BlockText} {p after : Payload} {r next : BitReader}

theorem HeadReadable.bounds_of_mem (h : b.HeadReadable) {lengths : List Nat}
    (hlengths : lengths ∈ b.straight.tableLengths) :
    ∀ l ∈ lengths, 1 ≤ l ∧ l ≤ Format.maxCodeLength := by
  rw [tableLengths_straight] at hlengths
  obtain ⟨t, ht, rfl⟩ := List.mem_map.1 hlengths
  intro l hl
  obtain ⟨length, hlength, rfl⟩ := List.mem_map.1 hl
  have hbounds := (h.tables_readable t ht).wrapped_mem length hlength
  omega

theorem Served.inRange_decoder (h : b.Served blockSize p) : p.decoder.InRange b.alphabet := by
  have hhead := h.decodable.toHeadReadable
  have hsize : b.straight.tableLengths.length = b.tables.length := by
    rw [tableLengths_straight, List.length_map]
  rw [h.decoder_eq]
  refine ⟨?_, fun selector hselector => ?_, fun table htable => ?_⟩
  · simpa [hsize] using hhead.tables_le
  · simpa [hsize] using lt_of_mem_selectors hhead.tables_le (List.mem_toArray.1 hselector)
  · obtain ⟨lengths, hlengths, rfl⟩ := List.mem_map.1 (List.mem_toArray.1 htable)
    have hlength := hhead.length_of_mem hlengths
    rw [← hlength]
    refine Table.inRange_ofLengths (fun hnil => ?_) (hhead.bounds_of_mem hlengths)
    rw [hnil] at hlength
    cases hlength

/-- A step of a payload fails for want of selectors, of a code word, or of room. -/
theorem Served.fault_of_step {stop : Payload × BitReader} (h : b.Served blockSize p)
    (hcovered : ∀ rest, p.decoder.next r ≠ .error (.defect .shortRead) rest)
    (hstep : p.step r = .error fault stop) :
    fault.InData ∨ fault = .stream (.invalidCode .unassigned) ∧ p.decoder.Rejects r.bits := by
  have hused := UsedMap.length_decode_le b.groups b.bitmaps
  have hsize : p.expansion.used.size % 2 ^ 16 = b.used.length := by
    rw [h.used_eq, List.size_toArray]
    exact Nat.mod_eq_of_lt (Nat.lt_of_le_of_lt hused (by decide))
  unfold Payload.step at hstep
  simp only at hstep
  split at hstep
  · rename_i hnext
    cases hstep
    rcases Decoder.fault_of_next h.inRange_decoder (congrArg Decoder.tables h.decoder_eq)
      (fun lengths hlengths l hl => (h.decodable.bounds_of_mem hlengths l hl).2) hnext with
      rfl | rfl | hrejects
    · exact absurd hnext (hcovered _)
    · exact .inl trivial
    · exact .inr hrejects
  rename_i symbol decoder mid hnext
  obtain ⟨-, -, -, hsymbol, -, -⟩ := h.tells_next _ _ _ hnext
  obtain ⟨order, hholds, -⟩ := h.expands
  have hlength : order.length = b.used.length := by
    rw [hholds.length_eq, h.used_eq, List.size_toArray]
  rw [hsize] at hstep
  split at hstep
  · rename_i haccept
    cases hstep
    rw [hholds.fault_of_accept (fun position hposition => ?_) haccept]
    · exact .inl trivial
    · rw [hlength]
      exact Token.recent_lt (List.length_pos_iff.2 h.decodable.used_ne_nil) hsymbol hposition
  · cases hstep

end BlockText

/-! ## Places -/

namespace Place

/-- What has been read up to the place is a text so far. -/
def Told : Place → Prop
  | .field next blockSize streamCrc _ =>
    ∃ blocks word, State.Told ⟨.field next, blockSize, streamCrc⟩ blocks word
  | .symbol p _ => ∃ (t : StreamText) (b : BlockText), t.Readable ∧ b.Served t.blockSize p
  | .byte readout => ∃ (t : StreamText) (column : List UInt8), t.Readable ∧
    column.length ≤ t.blockSize ∧ readout.InRange column

variable {place next : Place}

theorem told_of_place? {s : State} {r : BitReader} {blocks : List BlockText} {word : List Bool}
    (h : s.Told blocks word) (hplace : s.place? r = some place) : place.Told := by
  cases h with
  | start =>
    cases hplace
    exact ⟨_, _, .start⟩
  | @begun t phase begun ht h =>
    cases phase with
    | field =>
      cases hplace
      exact ⟨_, _, .begun ht h⟩
    | payload =>
      cases hplace
      obtain ⟨b, hserved, -⟩ := h
      exact ⟨t, b, ht, hserved⟩
    | ended => cases hplace
    | closed => cases hplace

theorem Told.step (h : place.Told) (hstep : place.Step next) : next.Told := by
  cases hstep with
  | @field _ _ _ _ _ after _ hbits hread hnext =>
    obtain ⟨blocks, word, htold⟩ := h
    obtain ⟨back, -, hafter | hends⟩ := htold.tells_read _ _ _ hread
    · exact told_of_place? hafter hnext
    · obtain ⟨phase, blockSize, streamCrc⟩ := after
      obtain rfl : phase = .ended := hends.1
      cases hnext
  | symbol hbits hstep =>
    obtain ⟨t, b, ht, hserved⟩ := h
    obtain ⟨c, -, -, -, hc⟩ := hserved.step hstep
    exact ⟨t, c, ht, hc⟩
  | complete hbits hstep hreadout =>
    obtain ⟨t, b, ht, hserved⟩ := h
    obtain ⟨c, -, order, -, -, -, -, -, hholds, hcolumn, hfits⟩ := hserved.finish hstep
    refine ⟨t, c.column, ht, hfits, ?_⟩
    rw [← hcolumn] at hfits ⊢
    exact Payload.inRange_readout hholds (Nat.le_trans hfits ht.blockSize_le) hreadout
  | byte hread =>
    obtain ⟨t, column, ht, hcolumn, hrange⟩ := h
    obtain ⟨byte, after, hother, hafter⟩ := hrange.read
    rw [hread] at hother
    cases hother
    exact ⟨t, column, ht, hcolumn, hafter⟩

/-- The faults of a place: those that lie in the data of fields and blocks, and the bits of a
longest search that begin with no code word. -/
def AtFault (place : Place) (fault : Fault) : Prop :=
  fault.InData ∨ fault = .stream (.invalidCode .unassigned) ∧ ∃ p r, place = .symbol p r ∧
    Format.maxSearch ≤ r.bits.length ∧ p.decoder.Rejects (r.bits.take Format.maxSearch)

/-- Where the text so far has been read and the reads are covered, there are no other faults. -/
theorem Told.atFault (h : place.Told) (hcovered : place.Covered) (hfails : place.Fails fault) :
    place.AtFault fault := by
  cases hfails with
  | field hbits hread =>
    obtain ⟨blocks, word, htold⟩ := h
    refine (Field.blames_read htold _ _ _ hread).elim (fun hshort => ?_) .inl
    exact absurd (hshort ▸ hread) (hcovered _ ((BitReader.hasBits_iff _ _).1 hbits) _)
  | @symbol p r _ after hbits hstep =>
    obtain ⟨t, b, ht, hserved⟩ := h
    have hbits := (BitReader.hasBits_iff _ _).1 hbits
    refine (hserved.fault_of_step (hcovered r hbits) hstep).imp_right ?_
    exact fun ⟨hfault, hrejects⟩ => ⟨hfault, p, r, rfl, hbits, hrejects.take _⟩
  | readout hbits hstep hreadout =>
    obtain ⟨t, b, ht, hserved⟩ := h
    obtain ⟨c, -, order, -, -, -, -, -, hholds, hcolumn, hfits⟩ := hserved.finish hstep
    rw [← hcolumn] at hfits
    rw [Payload.fault_of_readout hholds (Nat.le_trans hfits ht.blockSize_le) hreadout]
    exact .inl trivial
  | byte hread =>
    obtain ⟨t, column, -, -, hrange⟩ := h
    obtain ⟨byte, after, hother, -⟩ := hrange.read
    rw [hread] at hother
    cases hother
  | checksum hread hcheck =>
    obtain ⟨stored, computed, rfl⟩ := Readout.fault_of_checkCrc hcheck
    exact .inl trivial

theorem AtFault.exists_error (h : place.AtFault fault) : ∃ error, fault = .stream error := by
  rcases h with h | ⟨rfl, -⟩
  · cases fault with
    | stream error => exact ⟨error, rfl⟩
    | usage => cases h
    | defect => cases h
  · exact ⟨_, rfl⟩

end Place

/-! ## Calls -/

namespace Decompressor

variable {d : Decompressor} {blocks : List BlockText} {taken chunk : List UInt8}

/-- All places that a call on a stream passes lie in a text so far. -/
theorem Passes.told {place : Place} (h : d.Passes chunk place) (hd : d.Reading blocks taken) :
    place.Told := by
  obtain ⟨word, htold, -⟩ := hd
  exact h.induct (fun _ hfirst => Place.told_of_place? htold hfirst) fun _ _ hstep htold =>
    htold.step hstep

/-- A call on a stream fails at a place that is at fault. -/
theorem Reading.atFault_of_error (h : d.Reading blocks taken) (hsound : d.state.Sound)
    (herror : (d.decompress chunk).result = .error fault) :
    ∃ place, d.Passes chunk place ∧ place.AtFault fault := by
  obtain ⟨place, hpasses, hfails⟩ := passes_of_error h.phase_ne.2 herror
  exact ⟨place, hpasses, (hpasses.told h).atFault (hpasses.sound hsound).covered hfails⟩

end Decompressor

end Stream

end Bunzip
