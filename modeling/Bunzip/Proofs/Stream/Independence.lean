import Bunzip.Proofs.Stream.Recycling
import Bunzip.Proofs.Stream.Suspension

/-!
# Blocks are independent

From a block boundary on, the blocks that a stream gives and the errors in its data depend on the
block size and the unread bits alone. What came before is remembered in the checksum of the stream,
and this is only looked at where the stream ends (`Recycler.alike_from_boundary`).

`State.exists_openStop` says for a reading what stops it without naming the checksum, and
`Decompressor.exists_reply` for a call what it gives; along a drain the checksum takes in the blocks
that are given (`Decompressor.Reachable.exists_course`).
-/

namespace Bunzip.Stream

/-- What the end mark of a stream is answered with, where the stream has checksum `streamCrc`. -/
def endResult (stored streamCrc : UInt32) : Except Fault Event :=
  if stored = streamCrc then .ok .endOfStream
  else .error (.stream (.streamCrcMismatch stored streamCrc))

/-- The stream goes on from here, behind its header. -/
structure Phase.Onward (phase : Phase) : Prop where
  no_header : phase ≠ .field .streamHeader
  not_ended : phase ≠ .ended
  not_closed : phase ≠ .closed

theorem Phase.Behind.onward {field : Field} {phase : Phase} (h : phase.Behind field)
    (hin : field.inBlock = true) : phase.Onward := by
  have hphase := h.inBlock.trans hin
  refine ⟨h.no_header, ?_, ?_⟩ <;> rintro rfl <;> cases hphase

/-! ## Fields -/

/-- What a field gives, the checksum of the stream left open. -/
inductive Field.OpenResult where
  | failed (fault : Fault) (rest : BitReader)
  | reached (phase : Phase) (rest : BitReader)
  | endMark (stored : UInt32) (rest : BitReader)

namespace Field.OpenResult

/-- The result for a checksum. -/
def result (blockSize : Nat) (streamCrc : UInt32) :
    OpenResult → EStateM.Result Fault BitReader State
  | .failed fault rest => .error fault rest
  | .reached phase rest => .ok ⟨phase, blockSize, streamCrc⟩ rest
  | .endMark stored rest =>
    if stored = streamCrc then .ok ⟨.ended, blockSize, streamCrc⟩ rest
    else .error (.stream (.streamCrcMismatch stored streamCrc)) rest

/-- The stream does not end but by its mark. -/
def Onward : OpenResult → Prop
  | .reached phase _ => phase.Onward
  | _ => True

end Field.OpenResult

namespace Field

variable {field : Field} {blockSize : Nat}

theorem exists_openResult_bind {α : Type} (scan : Scan α) {rest : UInt32 → α → Scan State}
    (h : ∀ value r, ∃ result : OpenResult, result.Onward ∧ ∀ streamCrc,
      rest streamCrc value r = result.result blockSize streamCrc) (r : BitReader) :
    ∃ result : OpenResult, result.Onward ∧ ∀ streamCrc,
      (scan >>= rest streamCrc) r = result.result blockSize streamCrc := by
  cases hscan : scan r with
  | ok value next =>
    obtain ⟨result, honward, hresult⟩ := h value next
    refine ⟨result, honward, fun streamCrc => ?_⟩
    show EStateM.bind scan (rest streamCrc) r = _
    simp only [EStateM.bind, hscan, hresult]
  | error fault next =>
    refine ⟨.failed fault next, trivial, fun streamCrc => ?_⟩
    show EStateM.bind scan (rest streamCrc) r = _
    simp only [EStateM.bind, hscan, OpenResult.result]

/-- A field inside a block does not look at the checksum. -/
theorem exists_openResult_of_scan (hin : field.inBlock = true) {scan : Scan Phase}
    (hread : ∀ streamCrc, field.read blockSize streamCrc =
      (do return ⟨← scan, blockSize, streamCrc⟩ : Scan State)) (r : BitReader) :
    ∃ result : OpenResult, result.Onward ∧ ∀ streamCrc,
      field.read blockSize streamCrc r = result.result blockSize streamCrc := by
  have hbind (streamCrc : UInt32) : field.read blockSize streamCrc r =
      EStateM.bind scan (fun phase => pure ⟨phase, blockSize, streamCrc⟩) r := by
    rw [hread]
    rfl
  cases hscan : scan r with
  | ok phase rest =>
    have hall (streamCrc : UInt32) :
        field.read blockSize streamCrc r = .ok ⟨phase, blockSize, streamCrc⟩ rest := by
      rw [hbind, EStateM.bind, hscan]
      rfl
    have hbehind := gives_read_behind blockSize 0 field r _ _ (hall 0)
    exact ⟨.reached phase rest, hbehind.onward hin, hall⟩
  | error fault rest =>
    refine ⟨.failed fault rest, trivial, fun streamCrc => ?_⟩
    rw [hbind, EStateM.bind, hscan]
    rfl

theorem exists_openResult_blockHeader (r : BitReader) :
    ∃ result : OpenResult, result.Onward ∧ ∀ streamCrc,
      Field.blockHeader.read blockSize streamCrc r = result.result blockSize streamCrc := by
  simp only [read, readBlockHeader, bind_assoc]
  refine exists_openResult_bind _ (fun mark r => ?_) r
  by_cases hend : mark = Format.endMark
  · simp only [if_pos hend, bind_assoc]
    refine exists_openResult_bind _ (fun stored r => ⟨.endMark stored r, trivial, ?_⟩) r
    intro streamCrc
    by_cases hstored : stored = streamCrc
    · simp only [OpenResult.result, if_pos hstored, if_neg (not_not_intro hstored)]
      rfl
    · simp only [OpenResult.result, if_neg hstored, if_pos hstored]
      rfl
  simp only [if_neg hend]
  by_cases hblock : mark = Format.blockMark
  · simp only [if_pos hblock, bind_assoc]
    refine exists_openResult_bind _ (fun stored r => ?_) r
    exact ⟨.reached (.field (.blockParams stored)) r, ⟨nofun, nofun, nofun⟩, fun _ => rfl⟩
  · simp only [if_neg hblock]
    exact ⟨.failed (.stream .badBlockHeader) r, trivial, fun _ => rfl⟩

variable (blockSize) in
theorem exists_openResult (h : field ≠ .streamHeader) (r : BitReader) :
    ∃ result : OpenResult, result.Onward ∧ ∀ streamCrc,
      field.read blockSize streamCrc r = result.result blockSize streamCrc := by
  cases field with
  | streamHeader => exact absurd rfl h
  | blockHeader => exact exists_openResult_blockHeader r
  | _ => exact exists_openResult_of_scan rfl (fun _ => rfl) r

end Field

/-! ## Readings -/

/-- Where a reading stops, the checksum of the stream left open. -/
inductive OpenStop where
  | starved (phase : Phase) (reader : BitReader)
  | complete (readout : Block.Readout) (reader : BitReader)
  | failed (fault : Fault) (reader : BitReader)
  | endMark (stored : UInt32) (reader : BitReader)

/-- The stop for a checksum. -/
def OpenStop.stop (blockSize : Nat) (streamCrc : UInt32) : OpenStop → Stop
  | .starved phase r => ⟨⟨phase, blockSize, streamCrc⟩, r, .starved⟩
  | .complete readout r => ⟨⟨.field .blockHeader, blockSize, streamCrc⟩, r, .complete readout⟩
  | .failed fault r => ⟨⟨.ended, blockSize, streamCrc⟩, r, .failed fault⟩
  | .endMark stored r => ⟨⟨.ended, blockSize, streamCrc⟩, r,
      if stored = streamCrc then .ended
      else .failed (.stream (.streamCrcMismatch stored streamCrc))⟩

namespace State

variable {phase : Phase} {blockSize : Nat}

theorem exists_openStop_payload (payload : Block.Payload) (r : BitReader) :
    ∃ stop : OpenStop, ∀ streamCrc,
      readPayload blockSize streamCrc payload r = stop.stop blockSize streamCrc := by
  unfold readPayload
  cases payload.run r with
  | error fault after => exact ⟨.failed fault after.2, fun _ => rfl⟩
  | ok readout after =>
    cases readout with
    | none => exact ⟨.starved (.payload after.1) after.2, fun _ => rfl⟩
    | some readout => exact ⟨.complete readout _, fun _ => rfl⟩

variable (blockSize) in
/-- A reading does not look at the checksum but at the end mark. -/
theorem exists_openStop (h : phase.Onward) (r : BitReader) :
    ∃ stop : OpenStop, ∀ streamCrc,
      advance ⟨phase, blockSize, streamCrc⟩ r = stop.stop blockSize streamCrc := by
  induction hlength : r.bits.length using Nat.strongRecOn generalizing phase r with
  | ind n ih =>
    cases phase with
    | ended => exact absurd rfl h.not_ended
    | closed => exact absurd rfl h.not_closed
    | payload payload =>
      simp only [advance_payload]
      exact exists_openStop_payload payload r
    | field field =>
      by_cases hneed : r.bits.length < field.need
      · exact ⟨.starved (.field field) r, fun _ => advance_of_lt hneed⟩
      simp only [advance_of_le (Nat.le_of_not_lt hneed)]
      have hfield : field ≠ .streamHeader := fun heq => h.no_header (congrArg Phase.field heq)
      obtain ⟨result, honward, hresult⟩ := Field.exists_openResult blockSize hfield r
      simp only [hresult]
      cases result with
      | failed fault rest => exact ⟨.failed fault rest, fun _ => rfl⟩
      | reached after rest =>
        have hspent := Field.spends_read blockSize 0 field r _ rest (hresult 0)
        exact ih _ (by omega) honward rest rfl
      | endMark stored rest =>
        refine ⟨.endMark stored rest, fun streamCrc => ?_⟩
        by_cases hstored : stored = streamCrc
        · simp only [Field.OpenResult.result, OpenStop.stop, if_pos hstored, advance]
        · simp only [Field.OpenResult.result, OpenStop.stop, if_neg hstored]

end State

/-! ## Calls -/

/-- How the blocks of a stream stop coming. -/
inductive Closing where
  /-- More input is needed. -/
  | waiting
  | failed (fault : Fault)
  /-- The end mark, which carries a checksum. -/
  | endMark (stored : UInt32)

/-- What is reported behind the last block, where the stream has the checksum `streamCrc`. -/
def Closing.results (streamCrc : UInt32) : Closing → List (Except Fault Event)
  | .waiting => []
  | .failed fault => [.error fault]
  | .endMark stored => [endResult stored streamCrc]

/-- What a call at a block boundary gives, the checksum of the stream left open. -/
inductive Reply where
  /-- A block, with its checksum and what is left behind it. -/
  | block (data : Array UInt8) (checksum : UInt32) (rest : List UInt8) (bits : BitState)
  /-- No block, and where the stream stands then. -/
  | last (closing : Closing) (phase : Phase)

/-- The call on a stream with a checksum gives the reply. -/
def Reply.Of (blockSize : Nat) (streamCrc : UInt32) (call : Call) : Reply → Prop
  | .block data checksum rest bits => call.result = .ok (.block data) ∧ call.rest = rest ∧
      call.next = ⟨⟨.field .blockHeader, blockSize, Crc.fold streamCrc checksum⟩, bits⟩
  | .last closing phase => (∀ data, call.result ≠ .ok (.block data)) ∧
      reported [call] = closing.results streamCrc ∧ call.next.state = ⟨phase, blockSize, streamCrc⟩

namespace Decompressor

variable {blockSize : Nat} {chunk : List UInt8}

theorem exists_reply_deliver (readout : Block.Readout) (r : BitReader) (chunk : List UInt8) :
    ∃ reply : Reply, ∀ streamCrc, reply.Of blockSize streamCrc
      (deliver ⟨.field .blockHeader, blockSize, streamCrc⟩ r readout chunk) := by
  unfold deliver
  cases readout.drain #[] with
  | error fault => exact ⟨.last (.failed fault) .ended, fun _ => ⟨nofun, rfl, rfl⟩⟩
  | ok drained =>
    dsimp only
    cases drained.2.checkCrc with
    | error fault => exact ⟨.last (.failed fault) .ended, fun _ => ⟨nofun, rfl, rfl⟩⟩
    | ok checksum =>
      exact ⟨.block drained.1 checksum r.chunk r.release, fun _ => ⟨rfl, rfl, rfl⟩⟩

/-- A call at a block boundary gives the same for every checksum, but for the end of the stream. -/
theorem exists_reply (blockSize : Nat) (bits : BitState) (chunk : List UInt8) :
    ∃ reply : Reply, ∀ streamCrc, reply.Of blockSize streamCrc
      (decompress ⟨⟨.field .blockHeader, blockSize, streamCrc⟩, bits⟩ chunk) := by
  have honward : Phase.Onward (.field .blockHeader) := ⟨nofun, nofun, nofun⟩
  obtain ⟨stop, hstop⟩ := State.exists_openStop blockSize honward (BitReader.bind bits chunk)
  have hcall (streamCrc : UInt32) :
      decompress ⟨⟨.field .blockHeader, blockSize, streamCrc⟩, bits⟩ chunk =
        settle (stop.stop blockSize streamCrc) chunk :=
    (decompress_eq_settle fun h => by cases h).trans (congrArg (settle · chunk) (hstop streamCrc))
  simp only [hcall]
  cases stop with
  | starved phase r => exact ⟨.last .waiting phase, fun _ => ⟨nofun, rfl, rfl⟩⟩
  | complete readout r => exact exists_reply_deliver readout r chunk
  | failed fault r => exact ⟨.last (.failed fault) .ended, fun _ => ⟨nofun, rfl, rfl⟩⟩
  | endMark stored r =>
    refine ⟨.last (.endMark stored) .ended, fun streamCrc => ?_⟩
    by_cases hstored : stored = streamCrc
    · simp only [OpenStop.stop, Reply.Of, Closing.results, endResult, if_pos hstored]
      exact ⟨nofun, rfl, rfl⟩
    · simp only [OpenStop.stop, Reply.Of, Closing.results, endResult, if_neg hstored]
      exact ⟨nofun, rfl, rfl⟩

/-! ## Drains -/

/-- The checksum of a stream after blocks. -/
def foldBlocks (streamCrc : UInt32) (blocks : List (Array UInt8)) : UInt32 :=
  blocks.foldl (fun crc data => Crc.fold crc (Crc.ofBytes data.toList)) streamCrc

/-- The same place in a stream with another checksum. -/
def withCrc (d : Decompressor) (streamCrc : UInt32) : Decompressor :=
  ⟨⟨d.state.phase, d.state.blockSize, streamCrc⟩, d.bits⟩

variable {d : Decompressor}

theorem fold_right_injective {streamCrc a b : UInt32}
    (h : Crc.fold streamCrc a = Crc.fold streamCrc b) : a = b :=
  (UInt32.xor_right_inj _).1 h

/-- The checksum of the stream takes in the block that is given. -/
theorem Reachable.streamCrc_of_block {data : Array UInt8} (h : d.Reachable)
    (hblock : (d.decompress chunk).result = .ok (.block data)) :
    (d.decompress chunk).next.state.streamCrc =
      Crc.fold d.state.streamCrc (Crc.ofBytes data.toList) := by
  obtain ⟨blocks, taken, hreading⟩ := h.reading_of_block hblock
  obtain ⟨used, -, htold⟩ := hreading.decompress chunk
  rw [hblock] at htold
  obtain ⟨b, hdata, hnext⟩ := htold
  have hstored := hnext.front.1 b (List.mem_append_right _ (List.mem_singleton_self b))
  rw [hnext.front.2.1, hreading.front.2.1, hdata, ← hstored, List.map_append, Crc.foldAll,
    List.foldl_append]
  rfl

theorem trace_cons_block {call : Call} {data : Array UInt8} (h : call.result = .ok (.block data))
    (calls : List Call) :
    d.trace (call :: calls) =
      (.ok (.block data) :: (call.next.trace calls).1, (call.next.trace calls).2) := by
  refine Prod.ext ?_ rfl
  show reported (call :: calls) = .ok (.block data) :: reported calls
  unfold reported
  rw [List.filter_cons_of_pos (by simp [Call.isSuspended, h]), List.map_cons, h]

/-- A drain from a block boundary on gives the same blocks for every checksum. -/
theorem Reachable.exists_course (h : d.Reachable) (hphase : d.state.phase = .field .blockHeader)
    (chunk : List UInt8) :
    ∃ (blocks : List (Array UInt8)) (closing : Closing) (phase : Phase), ∀ streamCrc,
      (d.withCrc streamCrc).trace ((d.withCrc streamCrc).drain chunk) =
        (blocks.map (fun data => .ok (.block data)) ++
            closing.results (foldBlocks streamCrc blocks),
          ⟨phase, d.state.blockSize, foldBlocks streamCrc blocks⟩) := by
  induction hweight : d.weight chunk using Nat.strongRecOn generalizing d chunk with
  | ind n ih =>
    obtain ⟨⟨phase, blockSize, own⟩, bits⟩ := d
    cases hphase
    obtain ⟨reply, hreply⟩ := exists_reply blockSize bits chunk
    cases reply with
    | last closing phase =>
      refine ⟨[], closing, phase, fun streamCrc => ?_⟩
      obtain ⟨hblock, hreported, hstate⟩ := hreply streamCrc
      show trace _ (drain ⟨⟨.field .blockHeader, blockSize, streamCrc⟩, bits⟩ chunk) = _
      rw [drain_of_not_block hblock]
      exact Prod.ext hreported hstate
    | block data checksum rest bits' =>
      obtain ⟨hblock, hrest, hnext⟩ := hreply own
      have hlt := weight_decompress_lt hblock
      have hreachable := h.decompress chunk
      have hchecksum := h.streamCrc_of_block hblock
      rw [hnext] at hlt hreachable hchecksum
      rw [hrest] at hlt
      obtain rfl := fold_right_injective hchecksum
      obtain ⟨blocks, closing, phase, hcourse⟩ := ih _ (hweight ▸ hlt) hreachable rfl rest rfl
      refine ⟨data :: blocks, closing, phase, fun streamCrc => ?_⟩
      obtain ⟨hblock, hrest, hnext⟩ := hreply streamCrc
      show trace _ (drain ⟨⟨.field .blockHeader, blockSize, streamCrc⟩, bits⟩ chunk) = _
      rw [drain_of_block hblock, trace_cons_block hblock, hrest, hnext]
      have htrace := hcourse (Crc.fold streamCrc (Crc.ofBytes data.toList))
      exact congrArg (fun trace => (_ :: trace.1, trace.2)) htrace

/-- Behind a block, or a header, the decompressor waits. -/
theorem Reachable.waiting_at_boundary (h : d.Reachable)
    (hphase : d.state.phase = .field .blockHeader) : d.Waiting := by
  have hnil := h.decompress_nil (by simp [isFinished, hphase])
  refine ⟨?_, by rw [hnil], by rw [hnil]⟩
  rw [State.Sound, hphase]
  trivial

end Decompressor

/-! ## Recyclers -/

namespace Recycler

open Decompressor (foldBlocks)

/-- What feeding chunks to a recycler comes to: blocks, how they stop coming, and where the stream
stands then. -/
structure Course (m : Recycler) (chunks : List (List UInt8)) (blocks : List (Array UInt8))
    (closing : Closing) (phase : Phase) : Prop where
  reported_eq : reported (m.feed chunks).flatten = blocks.map (fun data => .ok (.block data)) ++
    closing.results (foldBlocks m.decompressor.state.streamCrc blocks)
  state_eq : (m.decompressor.after (m.feed chunks).flatten).state =
    ⟨phase, m.decompressor.state.blockSize, foldBlocks m.decompressor.state.streamCrc blocks⟩

theorem course_of_trace {m : Recycler} {chunks : List (List UInt8)} {blocks : List (Array UInt8)}
    {closing : Closing} {phase : Phase} (h : m.decompressor.Waiting)
    (htrace : m.decompressor.trace (m.decompressor.drain chunks.flatten) =
      (blocks.map (fun data => .ok (.block data)) ++
          closing.results (foldBlocks m.decompressor.state.streamCrc blocks),
        ⟨phase, m.decompressor.state.blockSize,
          foldBlocks m.decompressor.state.streamCrc blocks⟩)) :
    m.Course chunks blocks closing phase := by
  rw [← Decompressor.trace_feed h chunks, ← m.feed_eq] at htrace
  exact ⟨congrArg Prod.fst htrace, congrArg Prod.snd htrace⟩

/-- Two recyclers at a block boundary of streams with the same block size, whatever they read before
and whatever their buffers hold: if the unread bits are the same, kept ones and those of the chunks
together, then so are the blocks that are given, what stops them, and where the streams stand then.
The checksums take in the blocks, each from its own value on, and the end mark is answered by
comparing its checksum with that of the stream. -/
theorem alike_from_boundary {a b : Recycler} (ha : a.decompressor.Reachable)
    (hb : b.decompressor.Reachable) (haphase : a.decompressor.state.phase = .field .blockHeader)
    (hbphase : b.decompressor.state.phase = .field .blockHeader)
    (hsize : b.decompressor.state.blockSize = a.decompressor.state.blockSize)
    {chunks chunks' : List (List UInt8)}
    (hunread : b.decompressor.unread chunks'.flatten = a.decompressor.unread chunks.flatten) :
    ∃ blocks closing phase,
      a.Course chunks blocks closing phase ∧ b.Course chunks' blocks closing phase := by
  obtain ⟨blocks, closing, phase, hcourse⟩ := ha.exists_course haphase chunks.flatten
  refine ⟨blocks, closing, phase, course_of_trace (ha.waiting_at_boundary haphase) (hcourse _),
    course_of_trace (hb.waiting_at_boundary hbphase) ?_⟩
  -- the second one reads the bits of the first, with its own checksum
  have hstate : b.decompressor.state =
      (a.decompressor.withCrc b.decompressor.state.streamCrc).state := by
    rw [Decompressor.withCrc, haphase, ← hbphase, ← hsize]
  have hsound : (a.decompressor.withCrc b.decompressor.state.streamCrc).state.Sound :=
    hstate ▸ (hb.waiting_at_boundary hbphase).sound
  have htwin := Decompressor.twin_decompress_congr hsound hstate hunread
  have htrace := Decompressor.trace_drain_of_twin (Decompressor.sound_decompress hsound _) htwin
  rw [htrace, Decompressor.trace_drain, hcourse, hsize]

/-! ## Two streams with a block in common -/

/-- A stream of two equal blocks. -/
def twiceStream : List UInt8 :=
  [0x42, 0x5a, 0x68, 0x31, 0x31, 0x41, 0x59, 0x26, 0x53, 0x59, 0x3d, 0x2c, 0x2f, 0xc1, 0x00, 0x00,
    0x00, 0x01, 0x00, 0x20, 0x40, 0x20, 0x00, 0x21, 0x00, 0x82, 0x8c, 0xc5, 0x05, 0x64, 0x99, 0x4d,
    0x64, 0xf4, 0xb0, 0xbf, 0x04, 0x00, 0x00, 0x00, 0x04, 0x00, 0x81, 0x00, 0x80, 0x00, 0x84, 0x02,
    0x0a, 0x31, 0x77, 0x24, 0x53, 0x85, 0x09, 0x04, 0x77, 0x47, 0x04, 0x30]

/-- A stream of two blocks. The first is another one than in `twiceStream`, the second is the same,
and so is the end mark, which is wrong here. -/
def onceStream : List UInt8 :=
  [0x42, 0x5a, 0x68, 0x31, 0x31, 0x41, 0x59, 0x26, 0x53, 0x59, 0x49, 0x6f, 0x98, 0x2c, 0x00, 0x00,
    0x00, 0x01, 0x00, 0x10, 0x20, 0x20, 0x00, 0x21, 0x00, 0x82, 0x8c, 0xc5, 0x05, 0x64, 0x99, 0x4d,
    0x64, 0xf4, 0xb0, 0xbf, 0x04, 0x00, 0x00, 0x00, 0x04, 0x00, 0x81, 0x00, 0x80, 0x00, 0x84, 0x02,
    0x0a, 0x31, 0x77, 0x24, 0x53, 0x85, 0x09, 0x04, 0x77, 0x47, 0x04, 0x30]

/-- Behind the first block of `twiceStream`, which was read in one call. -/
def behindTwice : Recycler := start.next (twiceStream.take 30)

/-- Behind the first block of `onceStream`, which was read in two. -/
def behindOnce : Recycler :=
  (start.next (onceStream.take 28)).next ((onceStream.drop 28).take 5)

theorem reachable_next {m : Recycler} (h : m.decompressor.Reachable) (chunk : List UInt8) :
    (m.next chunk).decompressor.Reachable := by
  rw [decompressor_next]
  exact h.decompress chunk

theorem decompressor_behindTwice : behindTwice.decompressor =
    ⟨⟨.field .blockHeader, 100000, 0x3d2c2fc1⟩, ⟨[false, false], []⟩⟩ := by
  rw [behindTwice, decompressor_next]
  exact Decompressor.next_of_boundaryWithin 4 (by decide +kernel)

theorem decompressor_behindOnce : behindOnce.decompressor =
    ⟨⟨.field .blockHeader, 100000, 0x496f982c⟩,
      ⟨[false, false, true, true, false, false, false, true, false, true], []⟩⟩ := by
  rw [behindOnce, decompressor_next, decompressor_next]
  exact Decompressor.next_of_boundaryWithin 4 (by decide +kernel)

theorem alike_from_boundary_twice :
    behindOnce.decompressor.state.streamCrc ≠ behindTwice.decompressor.state.streamCrc ∧
      ∃ blocks closing phase,
        behindTwice.Course [(twiceStream.drop 27).take 10, twiceStream.drop 37] blocks closing
            phase ∧
          behindOnce.Course [onceStream.drop 28] blocks closing phase := by
  refine ⟨?_, alike_from_boundary (a := behindTwice) (b := behindOnce)
    (reachable_next .start _) (reachable_next (reachable_next .start _) _) ?_ ?_ ?_ ?_⟩
  all_goals simp only [decompressor_behindTwice, decompressor_behindOnce]
  all_goals decide +kernel

end Recycler

end Bunzip.Stream
