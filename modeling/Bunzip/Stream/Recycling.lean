import Bunzip.Block.Buffers
import Bunzip.Stream.Decompressor

/-!
# Decompressing in recycled buffers

The same reading, with the room of the blocks in sight. Between blocks the decompressor keeps the
buffers of the block before, with whatever is in them. They are lent to the next block when its
header has been read (`Field.lend`), a payload collects its bytes in them (`State.collect`) and lays
its walk out in them, and after its data were given the block hands them back. A block that fails
takes its buffers with it.
-/

namespace Bunzip.Stream

open Block (Buffers)

/-- Whether a block has the buffers once the field has been read. -/
def Field.inBlock : Field → Bool
  | .streamHeader | .blockHeader => false
  | _ => true

/-- The buffers once the field has been read: a block that begins is lent cleared ones. -/
def Field.lend (buffers : Buffers) : Field → Buffers
  | .blockParams _ => buffers.reset
  | _ => buffers

/-- Whether a block has the buffers. -/
def Phase.inBlock : Phase → Bool
  | .field (.blockParams _) => false
  | .field next => next.inBlock
  | .payload _ => true
  | .ended | .closed => false

namespace State

/-- A payload that begins collects its bytes in the buffer for them. -/
def collect (s : State) (buffers : Buffers) : State × Buffers :=
  match s with
  | ⟨.payload ⟨head, expansion, decoder⟩, blockSize, streamCrc⟩ =>
    (⟨.payload ⟨head, { expansion with bytes := buffers.bytes }, decoder⟩, blockSize, streamCrc⟩,
      ⟨#[], buffers.links⟩)
  | s => (s, buffers)

/-- `readPayload` with the walk laid out in a buffer. -/
def readPayloadIn (links : Array UInt32) (blockSize : Nat) (streamCrc : UInt32)
    (payload : Block.Payload) (r : BitReader) : Stop × Buffers :=
  let used := r.used
  match payload.runIn links r with
  | .error fault (_, r) => (⟨⟨.ended, blockSize, streamCrc⟩, r, .failed fault⟩, Buffers.empty)
  | .ok none (payload, r) => (⟨⟨.payload payload, blockSize, streamCrc⟩, r, .starved⟩, ⟨#[], links⟩)
  | .ok (some readout) (payload, r) =>
    let r := if r.used = used ∧ r.remaining ≠ 0 then r.refill else r
    (⟨⟨.field .blockHeader, blockSize, streamCrc⟩, r, .complete readout⟩,
      ⟨payload.expansion.bytes, readout.walk.links⟩)

/-- `advance` with buffers. -/
def advanceIn (buffers : Buffers) (s : State) (r : BitReader) : Stop × Buffers :=
  match s with
  | ⟨.field field, blockSize, streamCrc⟩ =>
    if r.hasBits field.need then
      match _h : field.read blockSize streamCrc r with
      | .error fault r => (⟨⟨.ended, blockSize, streamCrc⟩, r, .failed fault⟩,
          if field.inBlock then Buffers.empty else buffers)
      | .ok after rest =>
        let (after, buffers) := after.collect (field.lend buffers)
        after.advanceIn buffers rest
    else (⟨⟨.field field, blockSize, streamCrc⟩, r, .starved⟩, buffers)
  | ⟨.payload payload, blockSize, streamCrc⟩ =>
    readPayloadIn buffers.links blockSize streamCrc payload r
  | ⟨.ended, blockSize, streamCrc⟩ => (⟨⟨.ended, blockSize, streamCrc⟩, r, .ended⟩, buffers)
  | ⟨.closed, blockSize, streamCrc⟩ => (⟨⟨.closed, blockSize, streamCrc⟩, r, .ended⟩, buffers)
termination_by r.bits.length
decreasing_by exact Field.spends_read blockSize streamCrc field r _ rest _h

end State

namespace Decompressor

/-- `settle` with buffers: a block whose data are wrong does not hand its buffers back. -/
def settleIn (buffers : Buffers) (stop : Stop) (chunk : List UInt8) : Call × Buffers :=
  let call := settle stop chunk
  match stop.halt, call.result with
  | .complete _, .error _ => (call, Buffers.empty)
  | _, _ => (call, buffers)

/-- `decompress` with buffers. -/
def decompressIn (buffers : Buffers) (d : Decompressor) (chunk : List UInt8) : Call × Buffers :=
  match d with
  | ⟨⟨.closed, blockSize, streamCrc⟩, bits⟩ =>
    (⟨.error (.usage .closed), chunk, none, ⟨⟨.closed, blockSize, streamCrc⟩, bits⟩⟩, buffers)
  | ⟨⟨.ended, blockSize, streamCrc⟩, bits⟩ =>
    (⟨.ok .endOfStream, chunk, none, ⟨⟨.ended, blockSize, streamCrc⟩, bits⟩⟩, buffers)
  | ⟨state, bits⟩ =>
    let (stop, buffers) := state.advanceIn buffers (BitReader.bind bits chunk)
    settleIn buffers stop chunk

end Decompressor

end Bunzip.Stream
