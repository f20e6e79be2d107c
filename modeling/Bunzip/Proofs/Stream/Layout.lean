import Bunzip.Proofs.Scan.Layout
import Bunzip.Stream.Decompressor

/-!
# Where a call leaves the reader

Fields and symbols only move the reader (`Field.moves_read`, `Payload.moves_run`), and so does the
reading of a chunk, but for the byte that may be begun behind a payload. What a call leaves of its
chunk is known from the number of bits that it read (`State.advance_complete`,
`State.advance_waits`).
-/

namespace Bunzip

open Scan

namespace Huffman

theorem Row.moves_symbol (row : Row) (symbols : Array Nat) (word : Nat) :
    Moves (row.symbol symbols word) := by
  unfold Row.symbol
  split
  · exact moves_pure _
  · exact moves_fail _

theorem Table.moves_search (symbols : Array Nat) (left word : Nat) (rows : List Row) :
    Moves (search symbols left word rows) := by
  induction left generalizing word rows with
  | zero =>
    unfold search
    split
    · exact Row.moves_symbol _ _ _
    · exact moves_fail _
  | succ left ih =>
    unfold search
    split
    · exact Row.moves_symbol _ _ _
    · exact (moves_number 1).bind fun bit => ih _ _

theorem Decoder.moves_next (d : Decoder) : Moves d.next := by
  unfold next
  split
  · exact moves_fail _
  split
  · exact moves_fail _
  · exact ((moves_number _).bind fun _ => Table.moves_search _ _ _ _).bind fun _ => moves_pure _

end Huffman

namespace Block.Payload

theorem moves_step {p after : Payload} {r rest : BitReader} {done : Bool}
    (h : p.step r = .ok done (after, rest)) : ∃ n, n ≤ r.bits.length ∧ rest = r.skip n := by
  obtain ⟨head, expansion, decoder⟩ := p
  simp only [step] at h
  split at h
  · cases h
  · rename_i hnext
    split at h
    · cases h
    · cases h
      exact Huffman.Decoder.moves_next decoder _ _ _ hnext

theorem moves_run {p after : Payload} {r rest : BitReader} {out : Option Readout}
    (h : p.run r = .ok out (after, rest)) : ∃ n, n ≤ r.bits.length ∧ rest = r.skip n := by
  fun_induction run p r with
  | case1 => cases h
  | case2 => cases h
  | case3 p r _ after rest hstep =>
    cases h
    exact moves_step hstep
  | case4 p r _ mid next hstep ih =>
    obtain ⟨m, hm, rfl⟩ := moves_step hstep
    obtain ⟨n, hn, rfl⟩ := ih h
    rw [BitReader.bits_skip hm, List.length_drop] at hn
    exact ⟨m + n, by omega, BitReader.skip_skip (by omega)⟩
  | case5 p r =>
    cases h
    exact ⟨0, Nat.zero_le _, (BitReader.skip_zero _).symm⟩

end Block.Payload

namespace Stream

namespace Field

theorem moves_words (count : Nat) : Moves (words count) := by
  induction count with
  | zero => exact moves_pure _
  | succ count ih => exact (moves_number 16).bind fun _ => ih.bind fun _ => moves_pure _

theorem moves_unary (tables room : Nat) : Moves (unary tables room) := by
  induction room with
  | zero => exact moves_fail _
  | succ room ih => exact moves_bit.bind fun _ => moves_ite ih (moves_pure _)

theorem moves_readStreamHeader : Moves readStreamHeader :=
  (moves_number 24).bind fun _ => moves_ite (moves_fail _) <|
    (moves_number 8).bind fun _ => moves_ite (moves_fail _) (moves_pure _)

theorem moves_readBlockHeader (streamCrc : UInt32) : Moves (readBlockHeader streamCrc) :=
  (moves_number 48).bind fun _ => moves_ite
    (moves_checksum.bind fun _ => moves_ite (moves_fail _) (moves_pure _)) <|
    moves_ite (moves_checksum.bind fun _ => moves_pure _) (moves_fail _)

theorem moves_readUsedBitmaps (head : Block.Head) (groups : UInt16) :
    Moves (readUsedBitmaps head groups) :=
  (moves_words _).bind fun _ => (moves_number 3).bind fun _ =>
    moves_ite (moves_fail _) (moves_ite (moves_fail _) (moves_pure _))

theorem moves_readSelector (draft : Draft) (index : Nat) : Moves (readSelector draft index) :=
  (moves_unary _ _).bind fun _ => (moves_ofExcept _).bind fun _ =>
    moves_ite (moves_pure _) (moves_pure _)

theorem moves_readCodeLength (blockSize : Nat) (draft : Draft) (cursor : LengthCursor) :
    Moves (readCodeLength blockSize draft cursor) := by
  unfold readCodeLength
  split
  · exact (moves_number 5).bind fun _ => moves_pure _
  · exact moves_bit.bind fun _ => moves_pure _
  · exact moves_bit.bind fun _ => moves_ite (moves_pure _) (moves_ofExcept _)

/-- A field only moves the reader. -/
theorem moves_read (blockSize : Nat) (streamCrc : UInt32) (field : Field) :
    Moves (field.read blockSize streamCrc) := by
  have wrap {scan : Scan Phase} (h : Moves scan) :
      Moves (do return ⟨← scan, blockSize, streamCrc⟩ : Scan State) :=
    h.bind fun _ => moves_pure _
  cases field with
  | streamHeader => exact moves_readStreamHeader
  | blockHeader => exact wrap (moves_readBlockHeader _)
  | blockParams =>
    exact wrap (moves_bit.bind fun _ => (moves_number 24).bind fun _ => moves_pure _)
  | usedGroups => exact wrap ((moves_number 16).bind fun _ => moves_pure _)
  | usedBitmaps => exact wrap (moves_readUsedBitmaps _ _)
  | selectorCount =>
    exact wrap ((moves_number 15).bind fun _ => moves_ite (moves_fail _) (moves_pure _))
  | selector => exact wrap (moves_readSelector _ _)
  | codeLength => exact wrap (moves_readCodeLength _ _ _)

theorem spends_bitmaps (count : Nat) : Spends (16 * count) (words count) := by
  induction count with
  | zero => exact spends_pure _
  | succ count ih =>
    refine Spends.weaken ((spends_number 16).bind fun _ => ih.first fun _ => spends_pure _) ?_
    omega

/-- A field takes the bits that it needs, but for a selector, which may be short. -/
theorem spends_need (blockSize : Nat) (streamCrc : UInt32) {field : Field}
    (h : ∀ draft index, field ≠ .selector draft index) :
    Spends field.need (field.read blockSize streamCrc) := by
  have wrap {n : Nat} {scan : Scan Phase} (hscan : Spends n scan) :
      Spends n (do return ⟨← scan, blockSize, streamCrc⟩ : Scan State) :=
    hscan.first fun _ => spends_pure _
  cases field with
  | streamHeader =>
    exact (spends_number 24).bind fun _ => spends_ite (spends_fail 8 _) <|
      (spends_number 8).first fun _ => spends_ite (spends_fail 0 _) (spends_pure _)
  | blockHeader =>
    refine wrap ((spends_number 48).bind fun _ => spends_ite ?_ (spends_ite ?_ (spends_fail 32 _)))
    · exact spends_checksum.first fun _ => spends_ite (spends_fail 0 _) (spends_pure _)
    · exact spends_checksum.first fun _ => spends_pure _
  | blockParams =>
    exact wrap (spends_bit.bind fun _ => (spends_number 24).first fun _ => spends_pure _)
  | usedGroups => exact wrap (spends_readUsedGroups _)
  | usedBitmaps =>
    refine wrap ((spends_bitmaps _).bind fun _ => (spends_number 3).first fun _ => ?_)
    exact spends_ite (spends_fail 0 _) (spends_ite (spends_fail 0 _) (spends_pure _))
  | selectorCount => exact wrap (spends_readSelectorCount _)
  | selector draft index => exact absurd rfl (h draft index)
  | codeLength draft cursor =>
    obtain ⟨table, _ | running⟩ := cursor
    · exact wrap ((spends_number 5).first fun _ => spends_pure _)
    · exact wrap (spends_readCodeLength _ _ _)

end Field

namespace State

variable {s state : State} {r last : BitReader}

/-- The fewest bits that a state reads before it leads to another. -/
def leastSpent (s : State) : Nat :=
  match s.phase with
  | .field .blockHeader => 48
  | .field (.usedBitmaps head groups) => (Field.usedBitmaps head groups).need
  | _ => 0

theorem moves_field {field : Field} {blockSize : Nat} {streamCrc : UInt32} {after : State}
    (h : field.read blockSize streamCrc r = .ok after last) :
    ∃ m, m ≤ r.bits.length ∧ last = r.skip m ∧
      leastSpent ⟨.field field, blockSize, streamCrc⟩ ≤ m := by
  obtain ⟨m, hm, rfl⟩ := Field.moves_read _ _ _ _ _ _ h
  refine ⟨m, hm, rfl, ?_⟩
  have hneed (hselector : ∀ draft index, field ≠ .selector draft index) : field.need ≤ m := by
    have hspent := Field.spends_need _ _ hselector _ _ _ h
    rw [BitReader.bits_skip hm, List.length_drop] at hspent
    omega
  unfold leastSpent
  split
  · rename_i heq
    cases heq
    exact Nat.le_trans (by decide) (hneed nofun)
  · rename_i heq
    cases heq
    exact hneed nofun
  · exact Nat.zero_le m

/-- A block is complete after `n` bits, the last of them from bit `m` on in its payload. If no byte
of the chunk was begun for these, one more byte is begun. -/
theorem advance_complete {readout : Block.Readout}
    (h : s.advance r = ⟨state, last, .complete readout⟩) :
    ∃ m n, m ≤ n ∧ n ≤ r.bits.length ∧ s.leastSpent ≤ n ∧
      last = if (r.skip n).used = (r.skip m).used ∧ (r.skip n).remaining ≠ 0
        then (r.skip n).refill else r.skip n := by
  fun_induction advance s r with
  | case1 => cases h
  | case2 r blockSize streamCrc field _ after next hread ih =>
    obtain ⟨k, hk, rfl, hleast⟩ := moves_field hread
    obtain ⟨m, n, hmn, hn, -, hlast⟩ := ih h
    rw [BitReader.bits_skip hk, List.length_drop] at hn
    rw [BitReader.skip_skip (by omega), BitReader.skip_skip (by omega)] at hlast
    exact ⟨k + m, k + n, by omega, by omega, by omega, hlast⟩
  | case3 => cases h
  | case4 r payload blockSize streamCrc =>
    unfold readPayload at h
    split at h
    · cases h
    · cases h
    · rename_i hrun
      obtain ⟨n, hn, rfl⟩ := Block.Payload.moves_run hrun
      cases h
      refine ⟨0, n, Nat.zero_le n, hn, Nat.zero_le n, ?_⟩
      rw [BitReader.skip_zero]
  | case5 => cases h
  | case6 => cases h

/-- Without a fault and a block a call reads `n` bits and begins no more bytes than they need. If it
read nothing it may have stayed where it was. -/
theorem advance_waits (h : (s.advance r).halt = .starved ∨ (s.advance r).halt = .ended) :
    ∃ n, n ≤ r.bits.length ∧ (s.advance r).reader = r.skip n ∧
      (n = 0 ∧ (s.advance r).state = s ∨ s.leastSpent ≤ n) := by
  fun_induction advance s r with
  | case1 => simp at h
  | case2 r blockSize streamCrc field _ after next hread ih =>
    obtain ⟨k, hk, rfl, hleast⟩ := moves_field hread
    obtain ⟨n, hn, hreader, -⟩ := ih h
    rw [BitReader.bits_skip hk, List.length_drop] at hn
    rw [BitReader.skip_skip (by omega)] at hreader
    exact ⟨k + n, by omega, hreader, .inr (by omega)⟩
  | case4 r payload blockSize streamCrc =>
    unfold readPayload at h ⊢
    split
    · rename_i hrun
      simp [hrun] at h
    · rename_i hrun
      obtain ⟨n, hn, rfl⟩ := Block.Payload.moves_run hrun
      exact ⟨n, hn, rfl, .inr (Nat.zero_le n)⟩
    · rename_i hrun
      simp [hrun] at h
  | _ => exact ⟨0, Nat.zero_le _, (BitReader.skip_zero _).symm, .inl ⟨rfl, rfl⟩⟩

end State

end Stream

end Bunzip
