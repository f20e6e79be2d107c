import Bunzip.Proofs.Huffman.Setup
import Bunzip.Stream.Decompressor
import Bunzip.Stream.Text

/-!
# Reading the fields of a text

`State.Runs` says that a stretch of a stream takes the decoder from one state to another, if at
least the bits of a longest search stand behind it; `State.Spells` that nothing need stand behind it,
as each of its fields has just the bits that it needs. Each field has a word that it reads
(`Field.reads_readStreamHeader` and so on); selectors and code lengths are stretches of several
fields (`Field.runs_selectors`, `Field.spells_tables`).
-/

namespace Bunzip.Stream

open Scan Huffman

/-- The decoder reads `word` and is then at `after`, whatever follows, if there is enough of it. -/
def State.Runs (s : State) (word : List Bool) (after : State) : Prop :=
  ∀ r rest, r.bits = word ++ rest → Format.maxSearch ≤ rest.length →
    ∃ next, next.bits = rest ∧ s.advance r = after.advance next

namespace State

theorem runs_nil (s : State) : s.Runs [] s := by
  intro r rest hbits _
  exact ⟨r, hbits, rfl⟩

theorem Runs.trans {s mid after : State} {word back : List Bool} (h : s.Runs word mid)
    (h' : mid.Runs back after) : s.Runs (word ++ back) after := by
  intro r rest hbits hrest
  obtain ⟨next, hnext, heq⟩ := h r (back ++ rest) (by rw [hbits, List.append_assoc])
    (by rw [List.length_append]; omega)
  obtain ⟨last, hlast, heq'⟩ := h' next rest hnext hrest
  exact ⟨last, hlast, heq.trans heq'⟩

theorem advance_field {field : Field} {blockSize : Nat} {streamCrc : UInt32} {after : State}
    {word rest : List Bool} {r : BitReader}
    (hread : Reads (field.read blockSize streamCrc) word after) (hbits : r.bits = word ++ rest)
    (hneed : field.need ≤ r.bits.length) :
    ∃ next, next.bits = rest ∧
      advance ⟨.field field, blockSize, streamCrc⟩ r = after.advance next := by
  obtain ⟨next, hnext, hrest⟩ := hread r rest hbits
  have hhas : r.hasBits field.need = true := (r.hasBits_iff _).2 hneed
  refine ⟨next, hrest, ?_⟩
  rw [advance, if_pos hhas]
  split
  · simp_all
  · simp_all

end State

/-! ## Words read to the bit -/

/-- The decoder reads `word` field by field, no field before just its own bits are there, and is then
at a state or finds a fault. -/
inductive State.Spells : State → List Bool → Except Fault State → Prop
  | refl (s : State) : Spells s [] (.ok s)
  | fault {field : Field} {blockSize : Nat} {streamCrc : UInt32} {word : List Bool} {fault : Fault}
    (hneed : field.need = word.length) (hread : Fails (field.read blockSize streamCrc) word fault) :
    Spells ⟨.field field, blockSize, streamCrc⟩ word (.error fault)
  | field {field : Field} {blockSize : Nat} {streamCrc : UInt32} {front back : List Bool}
    {mid : State} {out : Except Fault State} (hneed : field.need = front.length)
    (hread : Reads (field.read blockSize streamCrc) front mid) (hback : Spells mid back out) :
    Spells ⟨.field field, blockSize, streamCrc⟩ (front ++ back) out

namespace State

theorem Spells.trans {s mid : State} {front back : List Bool} {out : Except Fault State}
    (h : s.Spells front (.ok mid)) (hback : mid.Spells back out) : s.Spells (front ++ back) out := by
  generalize hout : Except.ok mid = first at h
  induction h with
  | refl s =>
    cases hout
    exact hback
  | fault => cases hout
  | field hneed hread _ ih =>
    rw [List.append_assoc]
    exact .field hneed hread (ih hout)

/-- What is read to the bit is read, whatever follows. -/
theorem Spells.runs {s after : State} {word : List Bool} (h : s.Spells word (.ok after)) :
    s.Runs word after := by
  generalize hout : Except.ok after = out at h
  induction h with
  | refl =>
    cases hout
    exact runs_nil _
  | fault => cases hout
  | field hneed hread _ ih =>
    refine Runs.trans ?_ (ih hout)
    intro r rest hbits _
    exact advance_field hread hbits (by rw [hbits, List.length_append]; omega)

theorem spells_phase (field : Field) {blockSize : Nat} {streamCrc : UInt32} {scan : Scan Phase}
    {word : List Bool} {phase : Phase} (hread : Reads scan word phase)
    (hfield : field.read blockSize streamCrc = scan >>= fun phase =>
      pure ⟨phase, blockSize, streamCrc⟩)
    (hneed : field.need = word.length) :
    Spells ⟨.field field, blockSize, streamCrc⟩ word (.ok ⟨phase, blockSize, streamCrc⟩) := by
  rw [← List.append_nil word]
  refine .field hneed ?_ (.refl _)
  rw [hfield]
  exact hread.first (reads_pure _)

end State

/-! ## Single fields -/

namespace Field

variable {blockSize : Nat} {streamCrc : UInt32} {word : List Bool}

theorem runs_field {field : Field} {after : State}
    (hread : Reads (field.read blockSize streamCrc) word after)
    (hneed : field.need ≤ word.length + Format.maxSearch) :
    State.Runs ⟨.field field, blockSize, streamCrc⟩ word after := by
  intro r rest hbits hrest
  exact State.advance_field hread hbits (by rw [hbits, List.length_append]; omega)

theorem runs_phase (field : Field) {scan : Scan Phase} {phase : Phase}
    (hread : Reads scan word phase)
    (hfield : field.read blockSize streamCrc = scan >>= fun phase =>
      pure ⟨phase, blockSize, streamCrc⟩)
    (hneed : field.need ≤ word.length + Format.maxSearch) :
    State.Runs ⟨.field field, blockSize, streamCrc⟩ word ⟨phase, blockSize, streamCrc⟩ := by
  refine runs_field ?_ hneed
  rw [hfield]
  exact hread.first (reads_pure _)

/-! ## Fields of fixed size -/

theorem reads_readStreamHeader {digit : Nat} (hge : 1 ≤ digit) (hle : digit ≤ 9) :
    Reads readStreamHeader (Bits.ofNat 24 Format.signature ++ Bits.ofNat 8 (0x30 + digit))
      ⟨.field .blockHeader, digit * Format.blockUnit, 0⟩ := by
  refine (reads_number_ofNat (by decide)).bind ?_
  rw [if_neg (fun h => h rfl)]
  refine (reads_number_ofNat (by omega)).first ?_
  rw [if_neg (by omega), Nat.add_sub_cancel_left]
  exact reads_pure _

theorem reads_readBlockHeader (streamCrc stored : UInt32) :
    Reads (readBlockHeader streamCrc)
      (Bits.ofNat 48 Format.blockMark ++ Bits.ofNat 32 stored.toNat)
      (.field (.blockParams stored)) := by
  refine (reads_number_ofNat (by decide)).bind ?_
  rw [if_neg (by decide), if_pos rfl]
  exact (reads_checksum stored).first (reads_pure _)

theorem reads_readBlockHeader_end (streamCrc : UInt32) :
    Reads (readBlockHeader streamCrc)
      (Bits.ofNat 48 Format.endMark ++ Bits.ofNat 32 streamCrc.toNat) .ended := by
  refine (reads_number_ofNat (by decide)).bind ?_
  rw [if_pos rfl]
  refine (reads_checksum streamCrc).first ?_
  rw [if_neg (fun h => h rfl)]
  exact reads_pure _

theorem reads_readBlockParams (stored : UInt32) (randomised : Bool) {pointer : Nat}
    (h : pointer < 2 ^ 24) :
    Reads (readBlockParams stored) ([randomised] ++ Bits.ofNat 24 pointer)
      (.field (.usedGroups ⟨stored, randomised, pointer⟩)) :=
  (reads_bit randomised).bind ((reads_number_ofNat h).first (reads_pure _))

theorem reads_readUsedGroups (head : Block.Head) (groups : UInt16) :
    Reads (readUsedGroups head) (Bits.ofNat 16 groups.toNat)
      (.field (.usedBitmaps head groups)) := by
  refine (reads_number_ofNat groups.toNat_lt).first ?_
  rw [UInt16.ofNat_toNat]
  exact reads_pure _

theorem reads_words (bitmaps : List UInt16) :
    Reads (words bitmaps.length) (bitmaps.flatMap fun bitmap => Bits.ofNat 16 bitmap.toNat)
      bitmaps := by
  induction bitmaps with
  | nil => exact reads_pure []
  | cons bitmap bitmaps ih =>
    refine (reads_number_ofNat bitmap.toNat_lt).bind (ih.first ?_)
    rw [UInt16.ofNat_toNat]
    exact reads_pure _

theorem reads_readUsedBitmaps (head : Block.Head) {groups : UInt16} {bitmaps : List UInt16}
    {tables : Nat} (hbitmaps : bitmaps.length = (UsedMap.flagged groups).length)
    (hge : Format.minTables ≤ tables) (hle : tables ≤ Format.maxTables)
    (hused : UsedMap.decode groups bitmaps ≠ [])
    (hlength : (UsedMap.decode groups bitmaps).length ≤ 256) :
    Reads (readUsedBitmaps head groups)
      ((bitmaps.flatMap fun bitmap => Bits.ofNat 16 bitmap.toNat) ++ Bits.ofNat 3 tables)
      (.field (.selectorCount ⟨head, UsedMap.decode groups bitmaps,
        Setup.start tables ((UsedMap.decode groups bitmaps).length + 2)⟩)) := by
  have hpos := List.length_pos_iff.2 hused
  have hwords := reads_words bitmaps
  rw [hbitmaps] at hwords
  unfold Format.minTables Format.maxTables at *
  refine hwords.bind ((reads_number_ofNat (by omega)).first ?_)
  rw [if_neg (by unfold Format.minTables Format.maxTables; omega),
    if_neg (by unfold Format.minAlphabet Format.maxAlphabet; omega)]
  exact reads_pure _

theorem reads_readSelectorCount (draft : Draft) {count : Nat} (hge : 1 ≤ count)
    (hle : count ≤ Format.maxSelectors) :
    Reads (readSelectorCount draft) (Bits.ofNat 15 count)
      (.field (.selector { draft with setup := draft.setup.setSelectorCount count } 0)) := by
  have hmax : Format.maxSelectors = 18002 := rfl
  refine (reads_number_ofNat (by omega)).first ?_
  rw [if_neg (by omega)]
  exact reads_pure _

/-! ## Selectors -/

/-- A number of ones before a zero. -/
def unaryBits (count : Nat) : List Bool := List.replicate count true ++ [false]

theorem reads_unary {tables room count : Nat} (hcount : count < room) (hroom : room ≤ tables) :
    Reads (unary tables room) (unaryBits count) (tables - room + count) := by
  induction count generalizing room with
  | zero =>
    obtain ⟨room, rfl⟩ : ∃ n, room = n + 1 := ⟨room - 1, by omega⟩
    exact (reads_bit false).first (reads_pure _)
  | succ count ih =>
    obtain ⟨room, rfl⟩ : ∃ n, room = n + 1 := ⟨room - 1, by omega⟩
    have hrest := ih (show count < room by omega) (by omega)
    rw [show tables - room + count = tables - (room + 1) + (count + 1) by omega] at hrest
    exact (reads_bit true).bind hrest

variable {setup : Setup}

theorem reads_readSelector (head : Block.Head) (used : List UInt8) {done : List Nat}
    {left position : Nat} {order : List UInt8} {table : UInt8} (h : setup.Selecting done (left + 1) order)
    (htable : order[position]? = some table) :
    ∃ after : Setup,
      after.Selecting (done ++ [table.toNat]) left (table :: order.eraseIdx position) ∧
      after.tables = setup.tables ∧ after.alphabet = setup.alphabet ∧
      after.lengths = setup.lengths ∧
      Reads (readSelector ⟨head, used, setup⟩ done.length) (unaryBits position)
        (if left = 0 then .field (.codeLength ⟨head, used, after⟩ ⟨0, none⟩)
          else .field (.selector ⟨head, used, after⟩ (done.length + 1))) := by
  obtain ⟨after, hset, hafter, htables, halphabet, hlengths⟩ := h.setSelector htable
  refine ⟨after, hafter, htables, halphabet, hlengths, ?_⟩
  have hlt := (List.getElem?_eq_some_iff.1 htable).1
  have hsize := hafter.size_selectors
  have hposition := reads_unary (h.length_order ▸ hlt) (Nat.le_refl _)
  rw [Nat.sub_self, Nat.zero_add] at hposition
  refine hposition.first ?_
  rw [hset]
  refine (reads_pure after).first ?_
  rw [List.length_append, List.length_singleton] at hsize
  by_cases hleft : left = 0
  · rw [if_pos hleft, if_neg (by omega)]
    exact reads_pure _
  · rw [if_neg hleft, if_pos (by omega)]
    exact reads_pure _

/-- The selectors of a block are read to the last. -/
theorem runs_selectors (blockSize : Nat) (streamCrc : UInt32) (head : Block.Head)
    (used : List UInt8) {done positions : List Nat} {order : List UInt8}
    (h : setup.Selecting done positions.length order) (hne : positions ≠ [])
    (hpositions : ∀ position ∈ positions, position < setup.tables) :
    ∃ (after : Setup) (order' : List UInt8),
      after.Selecting (done ++ (MoveToFront.decode order positions).map UInt8.toNat) 0 order' ∧
      after.tables = setup.tables ∧ after.alphabet = setup.alphabet ∧
      after.lengths = setup.lengths ∧
      State.Runs ⟨.field (.selector ⟨head, used, setup⟩ done.length), blockSize, streamCrc⟩
        (positions.flatMap unaryBits)
        ⟨.field (.codeLength ⟨head, used, after⟩ ⟨0, none⟩), blockSize, streamCrc⟩ := by
  have hneed (position : Nat) : 6 ≤ (unaryBits position).length + Format.maxSearch :=
    Nat.le_add_left_of_le (by decide)
  induction positions generalizing setup done order with
  | nil => exact absurd rfl hne
  | cons position positions ih =>
    have hlt := hpositions position List.mem_cons_self
    rw [← h.length_order] at hlt
    have htable := List.getElem?_eq_getElem hlt
    obtain ⟨mid, hmid, htables, halphabet, hlengths, hread⟩ :=
      reads_readSelector head used h htable
    rw [List.flatMap_cons, MoveToFront.decode, htable, List.map_cons]
    by_cases hlast : positions = []
    · subst hlast
      rw [List.length_nil, if_pos rfl] at hread
      rw [List.flatMap_nil, List.append_nil]
      exact ⟨mid, _, hmid, htables, halphabet, hlengths,
        runs_phase _ hread rfl (hneed position)⟩
    · have hlength : positions.length ≠ 0 := fun h => hlast (List.length_eq_zero_iff.1 h)
      rw [if_neg hlength] at hread
      obtain ⟨after, order', hafter, htables', halphabet', hlengths', hruns⟩ :=
        ih hmid hlast fun other hother => by
          rw [htables]
          exact hpositions other (List.mem_cons_of_mem _ hother)
      rw [List.append_assoc, List.singleton_append] at hafter
      rw [List.length_append, List.length_singleton] at hruns
      refine ⟨after, order', hafter, htables'.trans htables, halphabet'.trans halphabet,
        hlengths'.trans hlengths, ?_⟩
      exact (runs_phase (.selector ⟨head, used, setup⟩ done.length) hread rfl
        (hneed position)).trans hruns

end Field

end Bunzip.Stream
