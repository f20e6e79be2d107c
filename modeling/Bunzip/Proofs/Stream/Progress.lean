import Bunzip.Proofs.Stream.Layout
import Bunzip.Proofs.Stream.Evaluation

/-!
# Progress

A call that completes a block begins one more byte if its payload began none of the chunk. That byte
is the next unread one, and this need not be a byte of the chunk: a carried byte that no code word
needed comes before it. So the chunk is left whole exactly if a carried byte is (`uses_chunk_iff`),
and the caller sees a block for which nothing was used (`block_without_use`).
-/

namespace Bunzip.Stream

namespace Decompressor

/-- What any calls on any chunks lead to. -/
inductive Reachable : Decompressor → Prop
  | start : Reachable start
  | decompress {d : Decompressor} (h : Reachable d) (chunk : List UInt8) :
    Reachable (d.decompress chunk).next
  | close {d closed : Decompressor} (h : Reachable d) (hclose : d.close = .ok closed) :
    Reachable closed

/-- The number of bits that a call reads. -/
def bitsRead (d : Decompressor) (chunk : List UInt8) : Nat :=
  (d.unread chunk).length - (d.decompress chunk).unread.length

/-- Less than a byte is held, or a second one that was begun behind a block. -/
def Tidy (d : Decompressor) : Prop :=
  d.bits.held.length < 8 ∨ d.bits.held.length < 16 ∧ d.state.phase = .field .blockHeader

variable {d : Decompressor} {chunk : List UInt8}

/-- The bits that are held beyond a byte are read before the state changes. -/
theorem Tidy.leastSpent (h : d.Tidy) : d.bits.held.length < 8 + d.state.leastSpent ∧
    d.bits.held.length < 16 := by
  rcases h with hlt | ⟨hlt, hphase⟩
  · omega
  · rw [State.leastSpent, hphase]
    simp only
    omega

/-! ## Held bits -/

theorem Tidy.length_held_skip {n : Nat} (h : d.Tidy)
    (hn : n ≤ (BitReader.bind d.bits chunk).bits.length) (hleast : d.state.leastSpent ≤ n) :
    ((BitReader.bind d.bits chunk).skip n).held.length < 8 := by
  have hlt := h.leastSpent.1
  have hheld : (BitReader.bind d.bits chunk).held.length = d.bits.held.length := rfl
  rw [BitReader.length_held_skip hn]
  simp only [BitReader.missing]
  omega

theorem tidy_of_held {state : State} {bits : BitState} (h : bits.held.length < 8) :
    Tidy ⟨state, bits⟩ :=
  .inl h

theorem length_held_refill_le (r : BitReader) :
    r.refill.held.length ≤ r.held.length + 8 := by
  unfold BitReader.refill
  split
  · have := r.length_held_fetch 1
    simp only [BitReader.fetch] at this
    omega
  · omega

theorem pending_release (r : BitReader) :
    r.release.pending = r.held.length + 8 * r.carry.length := rfl

/-- A reader that moves `n` bits on keeps what it kept before without them, or less than a byte. -/
theorem pending_skip {n : Nat} (h : d.Tidy)
    (hn : n ≤ (BitReader.bind d.bits chunk).bits.length) (hleast : d.state.leastSpent ≤ n) :
    ((BitReader.bind d.bits chunk).skip n).release.pending < 8 ∨
      ((BitReader.bind d.bits chunk).skip n).release.pending + n = d.bits.pending := by
  have hheld := h.length_held_skip hn hleast
  have hlength := BitReader.length_held_skip hn
  have hcarry := BitReader.length_carry_skip n (BitReader.bind d.bits chunk)
  have hmissing : (BitReader.bind d.bits chunk).missing n = (n - d.bits.held.length + 7) / 8 := rfl
  have hkept : (BitReader.bind d.bits chunk).carry.length = d.bits.carry.length := rfl
  have hbegun : (BitReader.bind d.bits chunk).held.length = d.bits.held.length := rfl
  rw [pending_release, BitState.pending]
  omega

theorem pending_refill_le (r : BitReader) :
    r.refill.release.pending ≤ max r.release.pending (r.held.length + 8) := by
  unfold BitReader.refill
  split
  · obtain ⟨held, _ | ⟨byte, carry⟩, _ | ⟨first, chunk⟩, used⟩ := r <;>
      simp [BitReader.pull, BitReader.release, BitState.pending] <;> omega
  · exact Nat.le_max_left _ _

theorem Tidy.decompress (h : d.Tidy) (chunk : List UInt8) : (d.decompress chunk).next.Tidy := by
  by_cases hclosed : d.state.phase = .closed
  · rw [decompress_closed hclosed]
    exact h
  rw [decompress_eq_settle hclosed]
  have hwaits : ∀ state last halt, d.state.advance (BitReader.bind d.bits chunk) =
      ⟨state, last, halt⟩ → halt = .starved ∨ halt = .ended →
        ∀ carry, Tidy ⟨state, ⟨last.held, carry⟩⟩ := by
    intro state last halt hstop hhalt carry
    obtain ⟨n, hn, hreader, hcase⟩ := State.advance_waits (by rw [hstop]; exact hhalt)
    rw [hstop] at hreader hcase
    obtain rfl : last = _ := hreader
    rcases hcase with ⟨rfl, hstate⟩ | hleast
    · obtain rfl : state = d.state := hstate
      rw [BitReader.skip_zero]
      exact h
    · exact tidy_of_held (h.length_held_skip hn hleast)
  generalize hstop : d.state.advance (BitReader.bind d.bits chunk) = stop
  obtain ⟨state, last, halt⟩ := stop
  cases halt with
  | starved => exact hwaits _ _ _ hstop (.inl rfl) _
  | ended => exact hwaits _ _ _ hstop (.inr rfl) _
  | failed => exact tidy_of_held (by simp [BitState.empty])
  | complete readout =>
    simp only [settle, deliver]
    split
    · exact tidy_of_held (by simp [BitState.empty])
    split
    · exact tidy_of_held (by simp [BitState.empty])
    · obtain ⟨m, n, -, hn, hleast, rfl⟩ := State.advance_complete hstop
      have hlt := h.length_held_skip hn hleast
      refine .inr ⟨?_, (State.length_bits_advance hstop).1⟩
      show (ite _ _ _ : BitReader).held.length < 16
      split
      · have := length_held_refill_le ((BitReader.bind d.bits chunk).skip n)
        omega
      · omega

theorem Reachable.tidy (h : d.Reachable) : d.Tidy := by
  induction h with
  | start => exact .inl (by simp [Decompressor.start, BitState.empty])
  | decompress _ chunk ih => exact ih.decompress chunk
  | close _ hclose _ =>
    unfold Decompressor.close at hclose
    split at hclose
    · cases hclose
    · cases hclose
      exact .inl (by simp [BitState.empty])

/-! ## What a block uses -/

theorem settle_block {state : State} {r : BitReader} {readout : Block.Readout} {data : Array UInt8}
    (h : (settle ⟨state, r, .complete readout⟩ chunk).result = .ok (.block data)) :
    (settle ⟨state, r, .complete readout⟩ chunk).rest = r.chunk ∧
      (settle ⟨state, r, .complete readout⟩ chunk).unread = r.bits := by
  simp only [settle, deliver] at h ⊢
  split at h
  · cases h
  split at h
  · cases h
  · exact ⟨rfl, unread_release _ r⟩

/-- A call that gives a block has read the bits up to its end, and leaves the chunk as
`State.advance_complete` says. -/
theorem decompress_block {data : Array UInt8}
    (h : (d.decompress chunk).result = .ok (.block data)) :
    ∃ m n last, m ≤ n ∧ n ≤ (BitReader.bind d.bits chunk).bits.length ∧ d.state.leastSpent ≤ n ∧
      last = (BitReader.bind d.bits chunk).skip n ∧ d.bitsRead chunk = n ∧
      (d.decompress chunk).rest =
        (if last.used = ((BitReader.bind d.bits chunk).skip m).used ∧ last.remaining ≠ 0
          then last.refill else last).chunk := by
  have hopen : d.state.phase ≠ .closed := by
    intro hclosed
    rw [decompress_closed hclosed] at h
    cases h
  unfold bitsRead
  rw [decompress_eq_settle hopen] at h ⊢
  generalize hstop : d.state.advance (BitReader.bind d.bits chunk) = stop at h ⊢
  obtain ⟨state, last, halt⟩ := stop
  cases halt with
  | complete readout =>
    obtain ⟨m, n, hmn, hn, hleast, hlast⟩ := State.advance_complete hstop
    have hbits : last.bits = (d.unread chunk).drop n := by
      rw [hlast, State.bits_refill_ite, BitReader.bits_skip hn]
      rfl
    have hn' : n ≤ (d.unread chunk).length := hn
    obtain ⟨hrest, hunread⟩ := settle_block h
    refine ⟨m, n, _, hmn, hn, hleast, rfl, ?_, ?_⟩
    · rw [hunread, hbits, List.length_drop]
      omega
    · rw [hrest, hlast]
  | _ => cases h

/-- A refill takes a carried byte before one of the chunk. -/
theorem length_chunk_refill {r : BitReader} (h : r.held.length < 8) :
    r.refill.chunk.length = r.chunk.length - (1 - r.carry.length) := by
  rw [BitReader.refill, if_pos (by omega)]
  exact r.length_chunk_fetch 1

/-- A call that gives a block uses a byte of its chunk exactly if fewer than eight of the bits kept
from before were left over by it. -/
theorem uses_chunk_iff {data : Array UInt8} (h : d.Reachable) (hchunk : chunk ≠ [])
    (hblock : (d.decompress chunk).result = .ok (.block data)) :
    (d.decompress chunk).rest.length < chunk.length ↔
      d.bits.pending < d.bitsRead chunk + 8 := by
  obtain ⟨m, n, last, hmn, hn, hleast, rfl, hread, hrest⟩ := decompress_block hblock
  have hpos : 0 < chunk.length := List.length_pos_iff.2 hchunk
  have htidy := h.tidy.leastSpent
  have hrefill := length_chunk_refill (h.tidy.length_held_skip hn hleast)
  have hused := BitReader.used_le_skip (r := BitReader.bind d.bits chunk) (m := m) (n := n - m)
    (by omega)
  rw [Nat.add_sub_cancel' hmn] at hused
  -- a byte of the chunk is begun when the carry is used up, and then the chunk is shorter
  have htotal := BitReader.used_add_length_skip n (BitReader.bind d.bits chunk)
  have hleft := BitReader.length_chunk_skip n (BitReader.bind d.bits chunk)
  have hcarry := BitReader.length_carry_skip n (BitReader.bind d.bits chunk)
  rw [hrest, hread, BitState.pending]
  generalize (BitReader.bind d.bits chunk).skip n = last at *
  generalize ((BitReader.bind d.bits chunk).skip m).used = before at *
  simp only [BitReader.missing, BitReader.bind] at hleft hcarry htotal
  have hremaining : last.remaining = last.chunk.length := rfl
  by_cases hnone : last.used = before ∧ last.remaining ≠ 0
  · rw [if_pos hnone]
    omega
  · rw [if_neg hnone]
    omega

/-! ## A block that uses nothing -/

/-- A stream of one block, up to the middle of its payload; eighteen bits of it are kept. -/
def beginning : List UInt8 :=
  [0x42, 0x5a, 0x68, 0x31, 0x31, 0x41, 0x59, 0x26, 0x53, 0x59, 0x3d, 0x2c, 0x2f, 0xc1, 0x00, 0x00,
    0x00, 0x01, 0x00, 0x20, 0x40, 0x20, 0x00, 0x21, 0x00, 0x82, 0x8c, 0x5d]

def continuation : List UInt8 := [0xc9, 0x14]

def midway : Decompressor := (start.decompress beginning).next

theorem reachable_midway : midway.Reachable := .decompress .start beginning

theorem blockWithin_midway :
    midway.blockWithin 20 continuation = some (#[0x61, 0x61, 0x68], continuation) := by
  decide +kernel

/-- A call may give a block and leave its chunk whole. -/
theorem block_without_use : ∃ (d : Decompressor) (chunk : List UInt8) (data : Array UInt8),
    d.Reachable ∧ chunk ≠ [] ∧ (d.decompress chunk).result = .ok (.block data) ∧
      (d.decompress chunk).rest = chunk := by
  obtain ⟨hresult, hrest⟩ := decompress_of_blockWithin blockWithin_midway
  exact ⟨midway, continuation, _, reachable_midway, by decide, hresult, hrest⟩

theorem uses_chunk_iff_midway :
    (midway.decompress continuation).rest.length < continuation.length ↔
      midway.bits.pending < midway.bitsRead continuation + 8 :=
  uses_chunk_iff reachable_midway (by decide) (decompress_of_blockWithin blockWithin_midway).1

end Decompressor

end Bunzip.Stream
