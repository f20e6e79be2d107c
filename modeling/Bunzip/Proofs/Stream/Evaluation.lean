import Bunzip.Proofs.Stream.Chunking

/-!
# Calls on given data

`drain` recurses on a pair of numbers, which cannot be computed inside a proof. With a bound on the
bytes of the block it can: `blockWithin` finds the block that a call gives by recursion on the bound
(`decompress_of_blockWithin`), and `boundaryWithin` what is behind it.
-/

namespace Bunzip

namespace Block.Readout

theorem drain_of_take {limit : Nat} {r after : Readout} {given data : Array UInt8}
    (h : take limit r given = .ok (data, after)) (hcopies : after.copies = 0)
    (hleft : after.walk.left = 0) : r.drain given = .ok (data, after) := by
  have hend : after.read = .ok (none, after) := by simp [read, hcopies, hleft]
  induction limit generalizing r given with
  | zero =>
    cases h
    rw [drain]
    split <;> simp_all
  | succ limit ih =>
    rw [take] at h
    rw [drain]
    split at h
    · cases h
    · cases h
      split <;> simp_all
    · split <;> simp_all

end Block.Readout

namespace Stream.Decompressor

variable {d : Decompressor} {chunk rest : List UInt8} {data : Array UInt8} {limit : Nat}

/-- The block that a call gives and what it leaves of its chunk, if the block has at most `limit`
bytes. -/
def blockWithin (limit : Nat) (d : Decompressor) (chunk : List UInt8) :
    Option (Array UInt8 × List UInt8) :=
  match d.state.advance (BitReader.bind d.bits chunk) with
  | ⟨_, r, .complete readout⟩ =>
    match readout.take limit #[] with
    | .ok (data, after) =>
      if after.copies = 0 ∧ after.walk.left = 0 ∧ after.crc.value = after.stored then
        some (data, r.chunk)
      else none
    | .error _ => none
  | _ => none

theorem deliver_of_take {state : State} {r : BitReader} {readout after : Block.Readout}
    (htake : readout.take limit #[] = .ok (data, after))
    (hend : after.copies = 0 ∧ after.walk.left = 0 ∧ after.crc.value = after.stored) :
    deliver state r readout chunk =
      ⟨.ok (.block data), r.chunk, some readout.walk.left,
        ⟨⟨state.phase, state.blockSize, Crc.fold state.streamCrc after.crc.value⟩, r.release⟩⟩ := by
  obtain ⟨hcopies, hleft, hcrc⟩ := hend
  have hdrain := Block.Readout.drain_of_take htake hcopies hleft
  have hcheck : after.checkCrc = .ok after.crc.value := by
    rw [Block.Readout.checkCrc, if_pos hcrc]
  simp only [deliver, hdrain, hcheck]

theorem decompress_of_complete {state : State} {r : BitReader} {readout : Block.Readout}
    (hstop : d.state.advance (BitReader.bind d.bits chunk) = ⟨state, r, .complete readout⟩) :
    d.decompress chunk = deliver state r readout chunk := by
  have hopen : d.state.phase ≠ .closed := by
    intro hclosed
    obtain ⟨⟨phase, blockSize, streamCrc⟩, bits⟩ := d
    cases hclosed
    simp [State.advance] at hstop
  rw [decompress_eq_settle hopen, hstop]
  rfl

theorem decompress_of_blockWithin (h : d.blockWithin limit chunk = some (data, rest)) :
    (d.decompress chunk).result = .ok (.block data) ∧ (d.decompress chunk).rest = rest := by
  unfold blockWithin at h
  split at h
  · rename_i state r readout hstop
    split at h
    · rename_i after htake
      split at h
      · rename_i hend
        cases h
        rw [decompress_of_complete hstop, deliver_of_take htake hend]
        exact ⟨rfl, rfl⟩
      · cases h
    · cases h
  · cases h

/-- The decompressor behind the block that a call gives, if the block has at most `limit` bytes. -/
def boundaryWithin (limit : Nat) (d : Decompressor) (chunk : List UInt8) : Option Decompressor :=
  match d.state.advance (BitReader.bind d.bits chunk) with
  | ⟨state, r, .complete readout⟩ =>
    match readout.take limit #[] with
    | .ok (_, after) =>
      if after.copies = 0 ∧ after.walk.left = 0 ∧ after.crc.value = after.stored then
        some ⟨⟨state.phase, state.blockSize, Crc.fold state.streamCrc after.crc.value⟩, r.release⟩
      else none
    | .error _ => none
  | _ => none

variable (limit) in
theorem next_of_boundaryWithin {next : Decompressor} (h : d.boundaryWithin limit chunk = some next) :
    (d.decompress chunk).next = next := by
  unfold boundaryWithin at h
  split at h
  · rename_i state r readout hstop
    split at h
    · rename_i data after htake
      split at h
      · rename_i hend
        cases h
        rw [decompress_of_complete hstop, deliver_of_take htake hend]
      · cases h
    · cases h
  · cases h

end Stream.Decompressor

end Bunzip
