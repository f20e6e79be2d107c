import Bunzip.Proofs.Stream.Live

/-!
# Safety

Any calls lead to a decompressor that was closed or is live, so what holds at each place of a stream
holds of each call: the reads are covered by the bits that were asked for
(`Decompressor.reads_covered`), and everything that is looked up exists, so that a fault lies in the
data (`Decompressor.lookups_in_range`).
-/

namespace Bunzip.Stream

open Scan Huffman Block

namespace Decompressor

variable {d : Decompressor} {chunk : List UInt8}

/-- Any calls lead to a decompressor that was closed or is live. -/
theorem Reachable.live (h : d.Reachable) : d.state.phase = .closed ∨ d.Live := by
  induction h with
  | start => exact .inr live_start
  | decompress _ chunk ih =>
    rcases ih with hclosed | hlive
    · rw [decompress_closed hclosed]
      exact .inl hclosed
    · exact .inr (hlive.next chunk)
  | close _ hclose _ =>
    unfold Decompressor.close at hclose
    split at hclose
    · cases hclose
    · cases hclose
      exact .inl rfl

/-- A call fails behind `close`, or at a place that is at fault. -/
theorem Reachable.fault_of_error {fault : Fault} (h : d.Reachable)
    (herror : (d.decompress chunk).result = .error fault) :
    fault = .usage .closed ∨ ∃ place, d.Passes chunk place ∧ place.AtFault fault := by
  rcases h.live with hclosed | hlive
  · rw [decompress_closed hclosed] at herror
    cases herror
    exact .inl rfl
  · exact .inr (hlive.atFault_of_error herror)

theorem Passes.reading {place : Place} (h : d.Passes chunk place) (hd : d.Reachable) :
    d.state.Sound ∧ ∃ blocks taken, d.Reading blocks taken := by
  obtain ⟨first, hfirst, -⟩ := h
  have hopen : d.state.phase ≠ .closed ∧ d.state.phase ≠ .ended := by
    obtain ⟨⟨phase, blockSize, streamCrc⟩, bits⟩ := d
    constructor <;> rintro rfl <;> cases hfirst
  rcases hd.live with hclosed | ⟨hsound, hended | hreading⟩
  · exact absurd hclosed hopen.1
  · exact absurd hended hopen.2
  · exact ⟨hsound, hreading⟩

/-- Wherever a call on a chunk comes to, the bits that are asked for before a read cover it, also if
it fails; so no read finds too few bits. -/
theorem reads_covered (h : d.Reachable) (chunk : List UInt8) :
    (∀ place, d.Passes chunk place → place.Covered) ∧
      (d.decompress chunk).result ≠ .error (.defect .shortRead) := by
  refine ⟨fun place hplace => (hplace.sound (hplace.reading h).1).covered, fun herror => ?_⟩
  rcases h.fault_of_error herror with hfault | ⟨place, -, hfault⟩
  · cases hfault
  · obtain ⟨error, herror⟩ := hfault.exists_error
    cases herror

theorem isFinished_midway : midway.isFinished = false := by decide +kernel

/-- In the middle of a payload. -/
theorem reads_covered_midway :
    (∃ place, midway.Passes continuation place ∧ place.Covered) ∧
      (midway.decompress continuation).result ≠ .error (.defect .shortRead) := by
  obtain ⟨hcovered, hresult⟩ := reads_covered reachable_midway continuation
  obtain ⟨place, hplace⟩ := exists_passes isFinished_midway continuation
  exact ⟨⟨place, hplace, hcovered place hplace⟩, hresult⟩

end Decompressor

/-! ## Lookups -/

/-- The next selector has its place, and each position that can be written out is one in the table
of recent tables. -/
structure Draft.SelectorInRange (draft : Draft) (index : Nat) : Prop where
  tables_le : draft.setup.tables ≤ Format.maxTables
  index_lt : index < draft.setup.selectors.size
  size_recents : draft.setup.recents.order.size = draft.setup.tables
  positions_lt : Gives (· < draft.setup.tables) (Field.unary draft.setup.tables draft.setup.tables)
  stores : ∀ position < draft.setup.tables,
    ∃ after, draft.setup.setSelector index position = .ok after

/-- The next code length has its place, if a symbol is known for it. -/
structure Draft.LengthInRange (draft : Draft) (cursor : LengthCursor) : Prop where
  tables_le : draft.setup.tables ≤ Format.maxTables
  alphabet_le : draft.setup.alphabet ≤ Format.maxAlphabet
  table_lt : cursor.table < draft.setup.tables
  symbol_lt : ∀ running, cursor.running = some running → running.symbol < draft.setup.alphabet
  rows : ∀ table < draft.setup.tables,
    ∃ row, draft.setup.lengths[table]? = some row ∧ row.size = Format.maxAlphabet

namespace Place

/-- Everything that is looked up or stored on the way to the next place has its place. -/
def InRange : Place → Prop
  | .field (.usedBitmaps _ groups) _ _ _ =>
    ∀ bitmaps, (UsedMap.decode groups bitmaps).length + 2 ≤ Format.maxAlphabet
  | .field (.selector draft index) _ _ _ => draft.SelectorInRange index
  | .field (.codeLength draft cursor) _ _ _ => draft.LengthInRange cursor
  | .field _ _ _ _ => True
  | .symbol p _ => p.InRange
  | .byte readout => (∃ column : List UInt8, column.length ≤ 9 * Format.blockUnit ∧
    readout.InRange column) ∧ ∀ after, readout.fill = .ok after → 0 < after.copies

end Place

theorem BlockText.Selected.inRange {b : BlockText} {tables count : Nat} {draft : Draft}
    (h : b.Selected tables count draft) (hcount : b.positions.length < count) :
    draft.SelectorInRange b.positions.length := by
  have hpositions : ∀ position ∈ b.positions, position < (firstOrder tables).length := by
    simpa [firstOrder] using h.positions_lt
  have hsize := h.selecting.size_selectors
  rw [List.length_map, MoveToFront.length_decode hpositions] at hsize
  have hrecents := congrArg List.length h.selecting.recents
  rw [h.selecting.length_order, MoveToFront.toList, Array.length_toList] at hrecents
  have hstores (position : Nat) (hposition : position < draft.setup.tables) :
      ∃ after, draft.setup.setSelector b.positions.length position = .ok after := by
    rw [h.tables_eq] at hposition
    obtain ⟨after, hafter, -⟩ := h.push hposition hcount
    exact ⟨after, hafter⟩
  refine ⟨h.tables_eq ▸ h.tables_le, by omega, hrecents, fun r position next hrun => ?_, hstores⟩
  obtain ⟨-, -, other, hlt, hother, -⟩ := Field.tells_unary (Nat.le_refl _) _ _ _ hrun
  omega

theorem BlockText.Measured.inRange {b : BlockText} {tables : Nat} {draft : Draft}
    {known : List (List Nat)} {cursor : LengthCursor} (h : b.Measured tables draft)
    (hfilled : draft.setup.Filled known) (htable : cursor.table = b.tables.length)
    (hsymbol : ∀ running, cursor.running = some running → running.symbol < b.alphabet) :
    draft.LengthInRange cursor := by
  have hused := UsedMap.length_decode_le b.groups b.bitmaps
  have halphabet : b.alphabet ≤ Format.maxAlphabet := Nat.add_le_add_right hused 2
  refine ⟨h.tables_eq ▸ h.tables_le, h.alphabet_eq ▸ halphabet, ?_, h.alphabet_eq ▸ hsymbol,
    fun table hlt => ?_⟩
  · rw [htable, h.tables_eq]
    exact h.tables_lt
  · rw [h.tables_eq] at hlt
    obtain ⟨row, hrow, hsize, -⟩ := hfilled table (Nat.lt_of_lt_of_le hlt h.tables_le)
    exact ⟨row, hrow, hsize⟩

/-- Behind a text so far the next field has its places. -/
theorem Phase.Begun.inRange {field : Field} {blockSize : Nat} {streamCrc : UInt32} {r : BitReader}
    {begun : List Bool} (h : (Phase.field field).Begun blockSize begun) :
    (Place.field field blockSize streamCrc r).InRange := by
  cases field with
  | usedBitmaps head groups =>
    exact fun bitmaps => Nat.add_le_add_right (UsedMap.length_decode_le groups bitmaps) 2
  | selector draft index =>
    obtain ⟨b, tables, count, hselected, rfl, hindex, -⟩ := h
    exact hselected.inRange hindex
  | codeLength draft cursor =>
    obtain ⟨table, running⟩ := cursor
    match running with
    | none =>
      obtain ⟨b, tables, hmeasured, hfilled, htable, -⟩ := h
      exact hmeasured.inRange hfilled htable nofun
    | some ⟨length, symbol, altering⟩ =>
      obtain ⟨b, tables, t, now, hmeasured, ht, hfilled, htable, hsymbol, -⟩ := h
      refine hmeasured.inRange hfilled htable fun running hrunning => ?_
      cases hrunning
      exact hsymbol ▸ ht.length_steps
  | _ => trivial

theorem BlockText.Served.inRange {b : BlockText} {blockSize : Nat} {p : Payload}
    (h : b.Served blockSize p) (hsize : blockSize ≤ 9 * Format.blockUnit) : p.InRange := by
  have hused := UsedMap.length_decode_le b.groups b.bitmaps
  have hlength : p.expansion.used.size = b.used.length := by rw [h.used_eq, List.size_toArray]
  have hword : b.used.length % 2 ^ 16 = b.used.length :=
    Nat.mod_eq_of_lt (Nat.lt_of_le_of_lt hused (by decide))
  obtain ⟨order, hholds, -⟩ := h.expands
  refine ⟨?_, hholds.inRange (hlength ▸ hused) (h.limit_eq ▸ h.fits) (h.limit_eq ▸ hsize), ?_⟩
  · rw [hlength]
    exact h.inRange_decoder
  · intro r symbol after next hnext position hposition
    obtain ⟨-, -, -, hsymbol, -, -⟩ := h.tells_next _ _ _ hnext
    rw [hlength, hword] at hposition
    rw [hlength]
    exact Token.recent_lt (List.length_pos_iff.2 h.decodable.used_ne_nil) hsymbol hposition

namespace Place

/-- Behind a text so far everything has its place. -/
theorem Told.inRange {place : Place} (h : place.Told) : place.InRange := by
  cases place with
  | field next blockSize streamCrc r =>
    obtain ⟨blocks, word, htold⟩ := h
    cases htold with
    | start => trivial
    | begun _ hbegun => exact hbegun.inRange
  | symbol p r =>
    obtain ⟨t, b, ht, hserved⟩ := h
    exact hserved.inRange (Nat.mul_le_mul_right _ ht.digit_le)
  | byte readout =>
    obtain ⟨t, column, ht, hlength, hrange⟩ := h
    refine ⟨⟨column, Nat.le_trans hlength (Nat.mul_le_mul_right _ ht.digit_le), hrange⟩, ?_⟩
    intro after hafter
    obtain ⟨other, hother, -, hpos⟩ := hrange.fill
    rw [hafter] at hother
    cases hother
    exact hpos

/-! ## The unread part of a chunk -/

/-- The reader at a place, as long as bits are read. -/
def reader? : Place → Option BitReader
  | .field _ _ _ r => some r
  | .symbol _ r => some r
  | .byte _ => none

/-- From place to place the reader goes on in the carry and in the chunk. -/
theorem within_step {place next : Place} {bits : BitState} {chunk : List UInt8}
    (h : ∀ r, place.reader? = some r → r.Within bits chunk) (hstep : place.Step next) :
    ∀ r, next.reader? = some r → r.Within bits chunk := by
  intro last hlast
  cases hstep with
  | @field _ _ _ r rest after _ hbits hread hnext =>
    obtain ⟨n, -, rfl⟩ := Field.moves_read _ _ _ _ _ _ hread
    obtain rfl : last = r.skip n := by
      obtain ⟨phase, blockSize, streamCrc⟩ := after
      cases phase <;> cases hnext <;> cases hlast <;> rfl
    exact (h r rfl).skip n
  | @symbol p after r rest hbits hstep =>
    obtain ⟨n, -, rfl⟩ := Payload.moves_step hstep
    cases hlast
    exact (h r rfl).skip n
  | complete => cases hlast
  | byte => cases hlast

end Place

namespace Decompressor

variable {d : Decompressor} {chunk : List UInt8}

theorem Passes.within {place : Place} (h : d.Passes chunk place) :
    ∀ r, place.reader? = some r → r.Within d.bits chunk := by
  refine h.induct (P := fun place => ∀ r, place.reader? = some r → r.Within d.bits chunk)
    (fun first hfirst r hr => ?_) fun _ _ hstep hwithin => Place.within_step hwithin hstep
  obtain rfl : r = BitReader.bind d.bits chunk := by
    obtain ⟨⟨phase, blockSize, streamCrc⟩, bits⟩ := d
    cases phase <;> cases hfirst <;> cases hr <;> rfl
  exact BitReader.within_bind d.bits chunk

theorem Reachable.rest_suffix (h : d.Reachable) (chunk : List UInt8) :
    (d.decompress chunk).rest <:+ chunk := by
  rcases h.live with hclosed | ⟨-, hended | ⟨blocks, taken, hreading⟩⟩
  · rw [decompress_closed hclosed]
  · rw [decompress_of_ended hended]
  · obtain ⟨used, hused, -⟩ := hreading.decompress chunk
    exact ⟨used, hused.symm⟩

/-- Wherever a call on a chunk comes to, everything that is looked up or stored has its place, and
the reader is in the kept bits and the chunk. So a call behind `close` apart, a fault lies in the
data: a code word is at fault only where the bits of a longest search begin with none, and an
alphabet only if it has two symbols. -/
theorem lookups_in_range (h : d.Reachable) (chunk : List UInt8) :
    (∀ place, d.Passes chunk place →
      place.InRange ∧ ∀ r, place.reader? = some r → r.Within d.bits chunk) ∧
    (d.decompress chunk).rest <:+ chunk ∧
    ∀ fault, (d.decompress chunk).result = .error fault →
      fault = .usage .closed ∨ ∃ place, d.Passes chunk place ∧ place.AtFault fault := by
  refine ⟨fun place hplace => ⟨?_, hplace.within⟩, h.rest_suffix chunk, fun fault =>
    h.fault_of_error⟩
  obtain ⟨-, blocks, taken, hreading⟩ := hplace.reading h
  exact (hplace.told hreading).inRange

def sizeless : List UInt8 := [0x42, 0x5a, 0x68, 0x30]

theorem decompress_sizeless :
    (start.decompress sizeless).result = .error (.stream (.invalidBlockSize 0x30)) := by
  decide +kernel

/-- In the middle of a payload, and at a header that is refused. -/
theorem lookups_in_range_midway :
    (∃ place, midway.Passes continuation place ∧ place.InRange) ∧
      (midway.decompress continuation).rest <:+ continuation ∧
      ∃ place, start.Passes sizeless place ∧
        place.AtFault (.stream (.invalidBlockSize 0x30)) := by
  obtain ⟨hranges, hrest, -⟩ := lookups_in_range reachable_midway continuation
  obtain ⟨place, hplace⟩ := exists_passes isFinished_midway continuation
  refine ⟨⟨place, hplace, (hranges place hplace).1⟩, hrest, ?_⟩
  exact ((lookups_in_range .start sizeless).2.2 _ decompress_sizeless).resolve_left nofun

end Decompressor

end Bunzip.Stream
