import Bunzip.Proofs.Stream.Safety

/-!
# Kept bits

As long as a stream goes on, fewer bits are kept between two calls than the next step needs
(`Decompressor.Reachable.pending_lt`). A call that is suspended stops for want of them. A call that
gives a block leaves at most 21: fewer were kept before it than were needed, and all but 22 of those
it has read. So a call without input does nothing (`Decompressor.pending_bounded`).
-/

namespace Bunzip

open Scan

namespace Block.Payload

variable {p after : Payload} {r rest : BitReader} {readout : Readout}

theorem length_bits_lt_of_step {done : Bool} (h : Spends 1 p.decoder.next)
    (hstep : p.step r = .ok done (after, rest)) : rest.bits.length < r.bits.length := by
  obtain ⟨head, expansion, decoder⟩ := p
  simp only [step] at hstep
  split at hstep
  · cases hstep
  · rename_i hnext
    split at hstep
    · cases hstep
    · cases hstep
      exact h _ _ _ hnext

/-- A payload is complete after at least one more bit. -/
theorem length_bits_lt_of_complete (h : Spends 1 p.decoder.next)
    (hrun : p.run r = .ok (some readout) (after, rest)) : rest.bits.length < r.bits.length := by
  rcases Nat.lt_or_ge r.bits.length Format.maxSearch with hlt | hge
  · rw [run_of_lt hlt] at hrun
    cases hrun
  rw [run_of_le hge] at hrun
  split at hrun
  · cases hrun
  · rename_i hstep
    split at hrun
    · cases hrun
    · cases hrun
      exact length_bits_lt_of_step h hstep
  · rename_i hstep
    exact Nat.lt_of_le_of_lt (length_bits_run hrun) (length_bits_lt_of_step h hstep)

end Block.Payload

namespace Stream

/-- When a block is complete, all but 22 of the needed bits have been read. -/
theorem State.need_le_of_complete {s state : State} {r last : BitReader} {readout : Block.Readout}
    (hpayload : ∀ p, s.phase = .payload p → Spends 1 p.decoder.next)
    (h : s.advance r = ⟨state, last, .complete readout⟩) :
    last.bits.length + s.phase.need ≤ r.bits.length + 22 := by
  obtain ⟨phase, blockSize, streamCrc⟩ := s
  cases phase with
  | field field =>
    show last.bits.length + field.need ≤ r.bits.length + 22
    rcases Nat.lt_or_ge r.bits.length field.need with hlt | hge
    · rw [advance_of_lt hlt] at h
      cases h
    rw [advance_of_le hge] at h
    split at h
    · cases h
    rename_i after next hread
    have hrest := (State.length_bits_advance h).2
    have hpending : after.inPayload.toNat ≤ 1 := Bool.toNat_le _
    -- a selector may be one bit of the six that it waits for
    by_cases hselector : ∃ draft index, field = .selector draft index
    · obtain ⟨draft, index, rfl⟩ := hselector
      have hspent := Field.spends_read _ _ _ _ _ _ hread
      show last.bits.length + 6 ≤ r.bits.length + 22
      omega
    · have hspent := Field.spends_need _ _
        (fun draft index heq => hselector ⟨draft, index, heq⟩) _ _ _ hread
      omega
  | payload p =>
    -- and the last code word one bit of a longest search
    show last.bits.length + 23 ≤ r.bits.length + 22
    rw [advance_payload, readPayload] at h
    split at h
    · cases h
    · cases h
    · rename_i hrun
      have hspent := Block.Payload.length_bits_lt_of_complete (hpayload p rfl) hrun
      cases h
      rw [bits_refill_ite]
      omega
  | ended =>
    rw [advance] at h
    cases h
  | closed =>
    rw [advance] at h
    cases h

namespace Decompressor

variable {d : Decompressor} {chunk : List UInt8}

theorem Reading.spends_next {blocks : List BlockText} {taken : List UInt8} {p : Block.Payload}
    (h : d.Reading blocks taken) (hp : d.state.phase = .payload p) : Spends 1 p.decoder.next := by
  obtain ⟨word, htold, -⟩ := h
  generalize d.state = state at htold hp
  cases htold with
  | start => cases hp
  | begun _ hbegun =>
    obtain rfl : _ = Phase.payload p := hp
    obtain ⟨b, hserved, -⟩ := hbegun
    exact hserved.inRange_decoder.spends_next

/-- After a call that is suspended fewer bits are kept than are needed. -/
theorem pending_of_suspended (h : (d.decompress chunk).result = .ok .suspended) :
    (d.decompress chunk).next.bits.pending < (d.decompress chunk).next.state.phase.need := by
  by_cases hclosed : d.state.phase = .closed
  · rw [decompress_closed hclosed] at h
    cases h
  rw [decompress_eq_settle hclosed] at h ⊢
  have hstarved := result_settle.1 h
  rw [settle_starved hstarved, BitState.pending_eq, BitReader.bits_suspend]
  exact State.need_of_starved hstarved

/-- After a call that gives a block at most 21 bits are kept, if fewer were kept before it than were
needed. -/
theorem Reading.pending_of_block {blocks : List BlockText} {taken : List UInt8} {data : Array UInt8}
    (h : d.Reading blocks taken) (htidy : d.Tidy) (hneed : d.bits.pending < d.state.phase.need)
    (hblock : (d.decompress chunk).result = .ok (.block data)) :
    (d.decompress chunk).next.bits.pending ≤ 21 ∧
      (d.decompress chunk).next.state.phase = .field .blockHeader := by
  rw [decompress_eq_settle h.phase_ne.2] at hblock ⊢
  generalize hstop : d.state.advance (BitReader.bind d.bits chunk) = stop at hblock ⊢
  obtain ⟨state, last, halt⟩ := stop
  cases halt with
  | complete readout =>
    have hread := State.need_le_of_complete (fun p => h.spends_next) hstop
    have hphase := (State.length_bits_advance hstop).1
    obtain ⟨m, n, -, hn, hleast, rfl⟩ := State.advance_complete hstop
    rw [State.bits_refill_ite, BitReader.bits_skip hn, List.length_drop] at hread
    have hskip : ((BitReader.bind d.bits chunk).skip n).release.pending ≤ 21 := by
      rcases pending_skip htidy hn hleast with hkept | hkept <;> omega
    have hheld := htidy.length_held_skip hn hleast
    have hrefill := pending_refill_le ((BitReader.bind d.bits chunk).skip n)
    simp only [settle, deliver] at hblock ⊢
    split at hblock
    · cases hblock
    split at hblock
    · cases hblock
    refine ⟨?_, hphase⟩
    show (ite _ _ _ : BitReader).release.pending ≤ 21
    split <;> omega
  | _ => cases hblock

theorem Reading.isFinished_eq {blocks : List BlockText} {taken : List UInt8}
    (h : d.Reading blocks taken) : d.isFinished = false := by
  unfold isFinished
  split
  · exact absurd ‹_› h.phase_ne.1
  · exact absurd ‹_› h.phase_ne.2
  · rfl

theorem Reachable.reading_of_block {data : Array UInt8} (h : d.Reachable)
    (hblock : (d.decompress chunk).result = .ok (.block data)) :
    ∃ blocks taken, d.Reading blocks taken := by
  rcases h.live with hclosed | ⟨-, hended | hreading⟩
  · rw [decompress_closed hclosed] at hblock
    cases hblock
  · rw [decompress_of_ended hended] at hblock
    cases hblock
  · exact hreading

/-- As long as a stream goes on, fewer bits are kept than are needed. -/
theorem Reachable.pending_lt (h : d.Reachable) (hopen : d.isFinished = false) :
    d.bits.pending < d.state.phase.need := by
  induction h with
  | start => decide
  | @decompress d h chunk ih =>
    rcases h.live with hclosed | hlive
    · rw [decompress_closed hclosed] at hopen ⊢
      exact ih hopen
    have hcall := hlive.decompress chunk
    cases hresult : (d.decompress chunk).result with
    | error fault =>
      rw [hresult] at hcall
      simp only at hcall
      simp [isFinished, hcall] at hopen
    | ok event =>
      cases event with
      | suspended => exact pending_of_suspended hresult
      | block data =>
        obtain ⟨blocks, taken, hreading⟩ := h.reading_of_block hresult
        obtain ⟨hle, hnext⟩ := hreading.pending_of_block h.tidy (ih hreading.isFinished_eq) hresult
        rw [hnext]
        exact Nat.lt_of_le_of_lt hle (by decide)
      | endOfStream =>
        rw [hresult] at hcall
        simp only at hcall
        simp [isFinished, hcall] at hopen
  | close _ hclose _ =>
    unfold Decompressor.close at hclose
    split at hclose
    · cases hclose
    · cases hclose
      cases hopen

/-- Fewer bits are kept than are needed, and without input nothing changes. -/
theorem Reachable.decompress_nil (h : d.Reachable) (hopen : d.isFinished = false) :
    d.decompress [] = ⟨.ok .suspended, [], none, d⟩ := by
  have hpending := h.pending_lt hopen
  have hclosed : d.state.phase ≠ .closed := by
    intro hclosed
    simp [isFinished, hclosed] at hopen
  have hbits : (BitReader.bind d.bits []).bits.length < d.state.phase.need := by
    rw [BitReader.bits_bind, Bits.ofBytes_nil, List.append_nil, ← BitState.pending_eq]
    exact hpending
  rw [decompress_eq_settle hclosed, State.advance_of_need hbits, settle, BitReader.suspend]
  simp [BitReader.bind]

/-- Whatever was done before: a call that is suspended keeps fewer bits than the next step needs,
and so at most 258; a call that gives a block keeps at most 21; never more than 15 of them are of
bytes that were begun. A call without input on a stream that goes on is suspended, and changes
nothing. -/
theorem pending_bounded (h : d.Reachable) :
    (∀ chunk, (d.decompress chunk).result = .ok .suspended →
      (d.decompress chunk).next.bits.pending < (d.decompress chunk).next.state.phase.need ∧
        (d.decompress chunk).next.bits.pending ≤ 258) ∧
    (∀ chunk data, (d.decompress chunk).result = .ok (.block data) →
      (d.decompress chunk).next.bits.pending ≤ 21) ∧
    d.bits.held.length ≤ 15 ∧
    (d.isFinished = false → d.decompress [] = ⟨.ok .suspended, [], none, d⟩) := by
  refine ⟨fun chunk hsuspended => ?_, fun chunk data hblock => ?_, ?_, h.decompress_nil⟩
  · have hpending := pending_of_suspended hsuspended
    have hneed := Phase.need_le (d.decompress chunk).next.state.phase
    omega
  · obtain ⟨blocks, taken, hreading⟩ := h.reading_of_block hblock
    exact (hreading.pending_of_block h.tidy (h.pending_lt hreading.isFinished_eq) hblock).1
  · exact Nat.le_of_lt_succ h.tidy.leastSpent.2

/-- Where a payload is suspended, and behind its block. -/
theorem pending_bounded_midway :
    midway.bits.pending < midway.state.phase.need ∧
      (midway.decompress continuation).next.bits.pending ≤ 21 ∧
      midway.bits.held.length ≤ 15 ∧ midway.decompress [] = ⟨.ok .suspended, [], none, midway⟩ := by
  have hsuspended : (start.decompress beginning).result = .ok .suspended := by decide +kernel
  obtain ⟨hbehind, -⟩ := pending_bounded .start
  obtain ⟨-, hblocks, hheld, hwaits⟩ := pending_bounded reachable_midway
  exact ⟨(hbehind _ hsuspended).1, hblocks _ _ (decompress_of_blockWithin blockWithin_midway).1,
    hheld, hwaits isFinished_midway⟩

end Decompressor

end Stream

end Bunzip
