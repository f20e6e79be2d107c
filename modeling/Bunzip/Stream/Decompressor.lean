import Bunzip.Stream.Field

/-!
# The decompressor

A `Decompressor` takes a stream chunk by chunk. A call of `decompress` reads fields and payload
until a block is complete, the stream ends, a fault is found, or the bits for the next step are
missing; in the last case the whole chunk is used and its unread part is kept. A fault in the data
ends the stream for good.

`drain` repeats the call on what is left of a chunk as long as it gives blocks, and `feed` drains
chunk after chunk. Both end because a call that gives a block has fewer unread bits than before, or
leaves a payload behind (`weight_decompress_lt`).
-/

namespace Bunzip.Stream

/-- What a call gives. -/
inductive Event where
  /-- More input is needed; the whole chunk is used. -/
  | suspended
  /-- The data of a block, whose checksum is right. -/
  | block (data : Array UInt8)
  /-- The stream has ended. -/
  | endOfStream
deriving Repr, DecidableEq, Inhabited

/-- Why the reading of a chunk stopped. -/
inductive Halt where
  /-- The bits for the next step are missing. -/
  | starved
  /-- A payload is complete. -/
  | complete (readout : Block.Readout)
  | ended
  | failed (fault : Fault)
deriving Repr, DecidableEq, Inhabited

/-- Where the reading of a chunk stopped, and why. -/
structure Stop where
  state : State
  reader : BitReader
  halt : Halt
deriving Repr, DecidableEq, Inhabited

namespace State

def finish (s : State) : State := ⟨.ended, s.blockSize, s.streamCrc⟩

/-- Reads the payload. If no byte of the chunk was begun by a payload that is complete, one is begun
now. -/
def readPayload (blockSize : Nat) (streamCrc : UInt32) (payload : Block.Payload) (r : BitReader) :
    Stop :=
  let used := r.used
  match payload.run r with
  | .error fault (_, r) => ⟨⟨.ended, blockSize, streamCrc⟩, r, .failed fault⟩
  | .ok none (payload, r) => ⟨⟨.payload payload, blockSize, streamCrc⟩, r, .starved⟩
  | .ok (some readout) (_, r) =>
    let r := if r.used = used ∧ r.remaining ≠ 0 then r.refill else r
    ⟨⟨.field .blockHeader, blockSize, streamCrc⟩, r, .complete readout⟩

/-- Reads fields, and the payload after them. -/
def advance (s : State) (r : BitReader) : Stop :=
  match s with
  | ⟨.field field, blockSize, streamCrc⟩ =>
    if r.hasBits field.need then
      match _h : field.read blockSize streamCrc r with
      | .error fault r => ⟨⟨.ended, blockSize, streamCrc⟩, r, .failed fault⟩
      | .ok after rest => after.advance rest
    else ⟨⟨.field field, blockSize, streamCrc⟩, r, .starved⟩
  | ⟨.payload payload, blockSize, streamCrc⟩ => readPayload blockSize streamCrc payload r
  | ⟨.ended, blockSize, streamCrc⟩ => ⟨⟨.ended, blockSize, streamCrc⟩, r, .ended⟩
  | ⟨.closed, blockSize, streamCrc⟩ => ⟨⟨.closed, blockSize, streamCrc⟩, r, .ended⟩
termination_by r.bits.length
decreasing_by exact Field.spends_read blockSize streamCrc field r after rest _h

def inPayload (s : State) : Bool :=
  match s.phase with
  | .payload _ => true
  | _ => false

end State

/-- A stream that arrives in chunks. -/
structure Decompressor where
  state : State
  /-- The unread bits of earlier chunks. -/
  bits : BitState
deriving Repr, DecidableEq, Inhabited

/-- The outcome of a call. -/
structure Call where
  result : Except Fault Event
  /-- The part of the chunk that was not used. -/
  rest : List UInt8
  /-- The number of bytes of the block that was completed, before its runs are lengthened. It is
  known also when the checksum of the block is wrong. -/
  reserved : Option Nat
  next : Decompressor

namespace Decompressor

def start : Decompressor := ⟨State.start, BitState.empty⟩

/-- Whether the stream has ended, by its end, a fault or `close`. -/
def isFinished (d : Decompressor) : Bool :=
  match d.state.phase with
  | .ended | .closed => true
  | _ => false

def isClosed (d : Decompressor) : Bool :=
  match d.state.phase with
  | .closed => true
  | _ => false

/-- Reads out a complete block and checks it. -/
def deliver (state : State) (r : BitReader) (readout : Block.Readout) (chunk : List UInt8) : Call :=
  let reserved := readout.walk.left
  let failed (fault : Fault) : Call :=
    ⟨.error fault, chunk, some reserved, ⟨state.finish, BitState.empty⟩⟩
  match readout.drain #[] with
  | .error fault => failed fault
  | .ok (data, readout) =>
    match readout.checkCrc with
    | .error fault => failed fault
    | .ok crc =>
      ⟨.ok (.block data), r.chunk, some reserved,
        ⟨⟨state.phase, state.blockSize, Crc.fold state.streamCrc crc⟩, r.release⟩⟩

/-- The outcome of a chunk whose reading has stopped. -/
def settle (stop : Stop) (chunk : List UInt8) : Call :=
  match stop with
  | ⟨state, r, .starved⟩ => ⟨.ok .suspended, [], none, ⟨state, r.suspend⟩⟩
  | ⟨state, r, .ended⟩ => ⟨.ok .endOfStream, r.chunk, none, ⟨state, r.release⟩⟩
  | ⟨state, _, .failed fault⟩ => ⟨.error fault, chunk, none, ⟨state, BitState.empty⟩⟩
  | ⟨state, r, .complete readout⟩ => deliver state r readout chunk

/-- Takes in a chunk as far as the next event. -/
def decompress (d : Decompressor) (chunk : List UInt8) : Call :=
  match d with
  | ⟨⟨.closed, blockSize, streamCrc⟩, bits⟩ =>
    ⟨.error (.usage .closed), chunk, none, ⟨⟨.closed, blockSize, streamCrc⟩, bits⟩⟩
  | ⟨⟨.ended, blockSize, streamCrc⟩, bits⟩ =>
    ⟨.ok .endOfStream, chunk, none, ⟨⟨.ended, blockSize, streamCrc⟩, bits⟩⟩
  | ⟨state, bits⟩ => settle (state.advance (BitReader.bind bits chunk)) chunk

/-- Gives up the stream; no call after it is of use. -/
def close (d : Decompressor) : Except Fault Decompressor :=
  match d.state.phase with
  | .closed => .error (.usage .alreadyClosed)
  | _ => .ok ⟨⟨.closed, d.state.blockSize, d.state.streamCrc⟩, BitState.empty⟩

/-! ## Progress -/

/-- The bits a call can read, and one more while a payload is being read. -/
def weight (d : Decompressor) (chunk : List UInt8) : Nat :=
  d.bits.pending + 8 * chunk.length + d.state.inPayload.toNat

end Decompressor

/-- A block is complete only after bits were spent on its fields, or in a payload begun before. -/
theorem State.length_bits_advance {s state : State} {r rest : BitReader} {readout : Block.Readout}
    (h : s.advance r = ⟨state, rest, .complete readout⟩) :
    state.phase = .field .blockHeader ∧ rest.bits.length < r.bits.length + s.inPayload.toNat := by
  fun_induction State.advance s r with
  | case1 => cases h
  | case2 r blockSize streamCrc field _ after next hread ih =>
    have hspent := Field.spends_read _ _ _ _ _ _ hread
    have := ih h
    refine ⟨this.1, ?_⟩
    have : after.inPayload.toNat ≤ 1 := Bool.toNat_le _
    simp only [State.inPayload, Bool.toNat_false]
    omega
  | case3 => cases h
  | case4 r payload blockSize streamCrc =>
    unfold State.readPayload at h
    split at h
    · cases h
    · cases h
    · rename_i hrun
      have hle := Block.Payload.length_bits_run hrun
      simp only [Stop.mk.injEq, Halt.complete.injEq] at h
      obtain ⟨rfl, hr, _⟩ := h
      refine ⟨rfl, ?_⟩
      rw [← hr]
      simp only [State.inPayload, Bool.toNat_true]
      split
      · rw [BitReader.bits_refill]; omega
      · omega
  | case5 => cases h
  | case6 => cases h

namespace Decompressor

/-- A call that gives a block makes what is left lighter. -/
theorem weight_decompress_lt {d : Decompressor} {chunk : List UInt8} {data : Array UInt8}
    (h : (d.decompress chunk).result = .ok (.block data)) :
    (d.decompress chunk).next.weight (d.decompress chunk).rest < d.weight chunk := by
  unfold decompress at *
  split at h
  · cases h
  · cases h
  · rename_i state bits _ _
    generalize hstop : state.advance (BitReader.bind bits chunk) = stop at *
    obtain ⟨after, r, halt⟩ := stop
    cases halt with
    | starved => cases h
    | ended => cases h
    | failed => cases h
    | complete readout =>
      have hbits := State.length_bits_advance hstop
      simp only [settle, deliver] at h ⊢
      split at h
      · cases h
      · split at h
        · cases h
        · have hphase := hbits.1
          simp only [weight, State.inPayload, hphase, BitReader.bits_bind, List.length_append,
            BitReader.length_bits, Bits.length_ofBytes, BitState.pending] at *
          simp [BitReader.release, BitState.bits] at *
          omega

/-- The calls on a chunk and on what each of them left, for as long as they give blocks. -/
def drain (d : Decompressor) (chunk : List UInt8) : List Call :=
  let call := d.decompress chunk
  match _h : call.result with
  | .ok (.block _) => call :: call.next.drain call.rest
  | _ => [call]
termination_by d.weight chunk
decreasing_by exact weight_decompress_lt _h

/-- Drains chunk after chunk until the stream ends or a fault is found. -/
def feed (d : Decompressor) : List (List UInt8) → List (List Call)
  | [] => []
  | chunk :: chunks =>
    let calls := d.drain chunk
    match calls.getLast? with
    | some ⟨.ok .suspended, _, _, next⟩ => calls :: next.feed chunks
    | _ => [calls]

end Decompressor

end Bunzip.Stream
