import Bunzip.Block.Payload

/-!
# Recycled buffers

A block needs room for its bytes and for the links of its walk. The room is handed from block to
block and holds what the block before left in it, until it is cleared for the next one (`reset`).
`Payload.runIn` reads a payload and lays its walk out in a given buffer.
-/

namespace Bunzip.Block

/-- The room of a block. -/
structure Buffers where
  /-- The bytes of the block, in the order of the sort. -/
  bytes : Array UInt8
  links : Array UInt32
deriving Repr, DecidableEq, Inhabited

namespace Buffers

def empty : Buffers := ⟨#[], #[]⟩

def reset (buffers : Buffers) : Buffers := ⟨buffers.bytes.shrink 0, buffers.links.shrink 0⟩

/-- Makes room for as many links; those that are there stay, and the others are 0. -/
def resize (links : Array UInt32) (size : Nat) : Array UInt32 :=
  (links.shrink size).rightpad size 0

theorem reset_eq (buffers : Buffers) : buffers.reset = empty := by
  simp [reset, empty]

theorem resize_empty (size : Nat) : resize #[] size = Array.replicate size 0 := by
  simp [resize, Array.rightpad]

end Buffers

/-- The walk that begins at the row `pointer` of a block, laid out in `links`. -/
def Walk.startIn (links : Array UInt32) (bytes : Array UInt8) (counts : Array Nat) (pointer : Nat) :
    Except Fault Walk :=
  if bytes.size ≤ pointer then .error (.stream (.invalidStartPointer pointer bytes.size))
  else
    match sortLinks bytes.toList 0 (firstPlaces counts.toList 0).toArray
        (Buffers.resize links bytes.size) with
    | .error fault => .error fault
    | .ok links =>
      match links[pointer]? with
      | none => .error (.defect .strayLink)
      | some current => .ok ⟨links, current, bytes.size⟩

namespace Payload

/-- Decodes symbols until the payload is complete, or until the bits for a longest search are
missing, and tells whether it is complete. -/
def decode (p : Payload) (r : BitReader) : Outcome Bool :=
  if r.hasBits Format.maxSearch then
    match _h : p.step r with
    | .error fault after => .error fault after
    | .ok true after => .ok true after
    | .ok false (after, rest) => after.decode rest
  else .ok false (p, r)
termination_by p.decoder.budget
decreasing_by exact (step_eq_ok _h).1

/-- The data of a complete payload, with the walk in `links`. -/
def readoutIn (links : Array UInt32) (p : Payload) : Except Fault Readout :=
  match Walk.startIn links p.expansion.bytes p.expansion.counts p.head.pointer with
  | .error fault => .error fault
  | .ok walk => .ok (Readout.start walk p.head.randomised p.head.stored)

/-- Decodes symbols as far as possible; a complete payload gives its data. -/
def runIn (links : Array UInt32) (p : Payload) (r : BitReader) : Outcome (Option Readout) :=
  match p.decode r with
  | .error fault after => .error fault after
  | .ok false after => .ok none after
  | .ok true (p, r) =>
    match p.readoutIn links with
    | .error fault => .error fault (p, r)
    | .ok readout => .ok (some readout) (p, r)

/-! ## Cleared buffers -/

theorem readoutIn_empty (p : Payload) : p.readoutIn #[] = p.readout := by
  unfold readoutIn readout Walk.startIn Walk.start
  rewrite [Buffers.resize_empty]
  rfl

theorem decode_of_has {p : Payload} {r : BitReader} (h : r.hasBits Format.maxSearch) :
    p.decode r =
      match p.step r with
      | .error fault after => .error fault after
      | .ok true after => .ok true after
      | .ok false (after, rest) => after.decode rest := by
  rw [decode, if_pos h]
  split <;> simp_all

/-- In a cleared buffer a payload is read as in one of its own. -/
theorem runIn_empty (p : Payload) (r : BitReader) : p.runIn #[] r = p.run r := by
  fun_induction run p r with
  | case1 p r hhas fault after hstep => rw [runIn, decode_of_has hhas, hstep]
  | case2 p r hhas after rest hstep fault hreadout =>
    simp only [runIn, decode_of_has hhas, hstep, readoutIn_empty, hreadout]
  | case3 p r hhas after rest hstep readout hreadout =>
    simp only [runIn, decode_of_has hhas, hstep, readoutIn_empty, hreadout]
  | case4 p r hhas after rest hstep ih =>
    rw [← ih, runIn, decode_of_has hhas, hstep]
    rfl
  | case5 p r hhas => rw [runIn, decode, if_neg hhas]

end Payload

end Bunzip.Block
