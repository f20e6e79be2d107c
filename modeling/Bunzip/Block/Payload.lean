import Bunzip.Block.Expansion
import Bunzip.Block.Readout
import Bunzip.Capacity
import Bunzip.Huffman.Decoder

/-!
# The payload of a block

The payload is a sequence of code words that ends with the end-of-block symbol. `run` decodes and
expands them while the bits for a longest search are there, so it can stop between any two symbols
and be continued with more bits. When the payload is complete the block can be read out.
-/

namespace Bunzip.Block

open Huffman

/-- What stands before the tables of a block. -/
structure Head where
  /-- The checksum that the block should have. -/
  stored : UInt32
  randomised : Bool
  /-- The row of the block itself among the sorted rotations. -/
  pointer : Nat
deriving Repr, DecidableEq, Inhabited

/-- A block whose payload is being read. -/
structure Payload where
  head : Head
  expansion : Expansion
  decoder : Decoder
deriving Repr, DecidableEq, Inhabited

namespace Payload

def start (limit : Nat) (head : Head) (used : List UInt8) (decoder : Decoder) : Payload :=
  ⟨head, Expansion.start limit used, decoder⟩

/-- Nothing was read, and room is set aside for a block of the largest size. -/
def reserve (limit : Nat) (head : Head) (used : List UInt8) (decoder : Decoder) :
    Except Fault Payload := do
  checkCapacity limit
  return start limit head used decoder

/-- The outcome of reading; payload and reader are known also after a fault. -/
abbrev Outcome (α : Type) := EStateM.Result Fault (Payload × BitReader) α

/-- Decodes and expands one symbol, and tells whether it was the end of the block. The used bytes
are counted in a word of 16 bits. -/
def step (p : Payload) (r : BitReader) : Outcome Bool :=
  match p with
  | ⟨head, expansion, decoder⟩ =>
    match decoder.next r with
    | .error fault r => .error fault (⟨head, expansion, decoder⟩, r)
    | .ok (symbol, decoder) r =>
      let token := Token.ofSymbol (expansion.used.size % 2 ^ 16) symbol
      match expansion.accept token with
      | .error fault expansion => .error fault (⟨head, expansion, decoder⟩, r)
      | .ok done expansion => .ok done (⟨head, expansion, decoder⟩, r)

/-- The data of a complete payload. -/
def readout (p : Payload) : Except Fault Readout :=
  match Walk.start p.expansion.bytes p.expansion.counts p.head.pointer with
  | .error fault => .error fault
  | .ok walk => .ok (Readout.start walk p.head.randomised p.head.stored)

theorem step_eq_ok {p after : Payload} {r rest : BitReader} {done : Bool}
    (h : p.step r = .ok done (after, rest)) :
    after.decoder.budget < p.decoder.budget ∧ rest.bits.length ≤ r.bits.length := by
  obtain ⟨head, expansion, decoder⟩ := p
  simp only [step] at h
  split at h
  · cases h
  · rename_i symbol decoder' r' hnext
    have := Decoder.next_eq_ok hnext
    split at h
    · cases h
    · cases h
      exact ⟨this.1, this.2.2.2.2⟩

/-- Decodes symbols until the payload is complete, which gives its data, or until the bits for a
longest search are missing. -/
def run (p : Payload) (r : BitReader) : Outcome (Option Readout) :=
  if r.hasBits Format.maxSearch then
    match _h : p.step r with
    | .error fault after => .error fault after
    | .ok true (p, r) =>
      match p.readout with
      | .error fault => .error fault (p, r)
      | .ok readout => .ok (some readout) (p, r)
    | .ok false (after, rest) => after.run rest
  else .ok none (p, r)
termination_by p.decoder.budget
decreasing_by exact (step_eq_ok _h).1

theorem length_bits_run {p after : Payload} {r rest : BitReader} {readout : Option Readout}
    (h : p.run r = .ok readout (after, rest)) : rest.bits.length ≤ r.bits.length := by
  fun_induction run p r with
  | case1 => cases h
  | case2 => cases h
  | case3 _ r _ _ _ hstep =>
    cases h
    exact (step_eq_ok hstep).2
  | case4 _ r _ _ _ hstep ih => exact Nat.le_trans (ih h) (step_eq_ok hstep).2
  | case5 => cases h; exact Nat.le_refl _

end Payload

end Bunzip.Block
