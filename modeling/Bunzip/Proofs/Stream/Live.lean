import Bunzip.Proofs.Stream.Faults
import Bunzip.Proofs.Stream.Integrity
import Bunzip.Proofs.Stream.RoundTrip

/-!
# Decompressors in use

A decompressor that was not closed reads a stream or has ended it (`Live`), and calls keep it so
(`Live.decompress`). Its blocks have data. Behind the end of a stream, and without input, the same
call is answered again and again (`drain_of_ended`, `drain_of_suspended`).
-/

namespace Bunzip

/-! ## Blocks have data -/

namespace Block.RunLength

theorem decode_ne_nil {bytes : List UInt8} (h : bytes ≠ []) : decode none 0 bytes ≠ [] := by
  obtain ⟨byte, rest, rfl⟩ := List.exists_cons_of_ne_nil h
  rw [decode_cons (.inr rfl)]
  exact List.cons_ne_nil _ _

end Block.RunLength

namespace Stream

theorem BlockText.Valid.data_ne_nil {b : BlockText} {blockSize : Nat} (h : b.Valid blockSize) :
    b.data ≠ [] := by
  refine Block.RunLength.decode_ne_nil (List.ne_nil_of_length_pos ?_)
  rw [length_masked, Block.Rotations.length_unsort]
  exact Nat.zero_lt_of_lt h.pointer_lt_column

namespace Decompressor

variable {d : Decompressor} {blocks : List BlockText} {taken left : List UInt8}

theorem Reading.data_ne_nil (h : d.Reading blocks taken) : ∀ b ∈ blocks, b.data ≠ [] := by
  obtain ⟨word, htold, -⟩ := h
  generalize d.state = state at htold
  cases htold with
  | start => exact fun b hb => by cases hb
  | begun ht => exact fun b hb => (ht.blocks_readable b hb).straight_valid.data_ne_nil

/-- The decompressor reads a stream, or has ended it. -/
structure Live (d : Decompressor) : Prop where
  sound : d.state.Sound
  reading : d.state.phase = .ended ∨ ∃ blocks taken, d.Reading blocks taken

theorem live_start : start.Live := ⟨State.sound_start, .inr ⟨[], [], reading_start⟩⟩

theorem live_of_ended (h : d.state.phase = .ended) : d.Live := by
  refine ⟨?_, .inl h⟩
  obtain ⟨⟨phase, blockSize, streamCrc⟩, bits⟩ := d
  cases h
  trivial

theorem Live.phase_ne_closed (h : d.Live) : d.state.phase ≠ .closed := by
  rcases h.reading with hended | ⟨blocks, taken, hreading⟩
  · rw [hended]
    nofun
  · exact hreading.phase_ne.2

theorem drain_of_ended (h : d.state.phase = .ended) (chunk : List UInt8) :
    d.drain chunk = [⟨.ok .endOfStream, chunk, none, d⟩] := by
  rw [drain_of_not_block, decompress_of_ended h]
  rw [decompress_of_ended h]
  nofun

/-- After a call that is suspended, calls without input are suspended. -/
theorem drain_of_suspended (h : (d.decompress left).result = .ok .suspended) :
    ∃ last, (d.decompress left).next.drain (d.decompress left).rest = [last] ∧
      last.result = .ok .suspended := by
  have hwaits := (waiting_decompress h rfl rfl).1
  exact ⟨_, drain_of_not_block (by rw [hwaits]; nofun), hwaits⟩

/-- What a call does to a live decompressor, by what it gives. -/
theorem Live.decompress (h : d.Live) (chunk : List UInt8) :
    match (d.decompress chunk).result with
    | .ok .suspended => (d.decompress chunk).next.Live
    | .ok (.block data) => data ≠ #[] ∧ (d.decompress chunk).next.Live
    | .ok .endOfStream => (d.decompress chunk).next.state.phase = .ended
    | .error _ => (d.decompress chunk).next.state.phase = .ended := by
  have hsound := sound_decompress h.sound chunk
  rcases h.reading with hended | ⟨blocks, taken, hreading⟩
  · rw [decompress_of_ended hended]
    exact hended
  · obtain ⟨used, -, htold⟩ := hreading.decompress chunk
    generalize d.decompress chunk = call at hsound htold ⊢
    obtain ⟨result, rest, reserved, next⟩ := call
    match result with
    | .ok .suspended => exact ⟨hsound, .inr ⟨_, _, htold⟩⟩
    | .ok (.block data) =>
      obtain ⟨b, hdata, hnext⟩ := htold
      have hne := hnext.data_ne_nil b (List.mem_append_right _ (List.mem_singleton_self _))
      refine ⟨?_, hsound, .inr ⟨_, _, hnext⟩⟩
      rintro rfl
      exact hne hdata.symm
    | .ok .endOfStream => exact htold.1
    | .error _ => exact htold.1

theorem Live.next (h : d.Live) (chunk : List UInt8) : (d.decompress chunk).next.Live := by
  have hcall := h.decompress chunk
  generalize d.decompress chunk = call at hcall ⊢
  obtain ⟨result, rest, reserved, next⟩ := call
  match result with
  | .ok .suspended => exact hcall
  | .ok (.block data) => exact hcall.2
  | .ok .endOfStream => exact live_of_ended hcall
  | .error _ => exact live_of_ended hcall

theorem Live.atFault_of_error {fault : Fault} (h : d.Live)
    (herror : (d.decompress left).result = .error fault) :
    ∃ place, d.Passes left place ∧ place.AtFault fault := by
  rcases h.reading with hended | ⟨blocks, taken, hreading⟩
  · rw [decompress_of_ended hended] at herror
    cases herror
  · exact hreading.atFault_of_error h.sound herror

/-- A drain ends with a call of a live decompressor that gives no block. -/
theorem Live.last_of_drain {last : Call} (h : d.Live)
    (hlast : (d.drain left).getLast? = some last) :
    ∃ (e : Decompressor) (rest : List UInt8), e.Live ∧ e.decompress rest = last ∧
      ∀ data, last.result ≠ .ok (.block data) := by
  fun_induction drain d left with
  | case1 d left call data hdata ih =>
    have hcall := h.decompress left
    rw [show (d.decompress left).result = .ok (.block data) from hdata] at hcall
    rw [List.getLast?_cons_of_ne_nil (drain_ne_nil _ _)] at hlast
    exact ih hcall.2 hlast
  | case2 d left call hne =>
    cases hlast
    exact ⟨d, left, h, rfl, hne⟩

theorem Live.error_of_drain {last : Call} {fault : Fault} (h : d.Live)
    (hlast : (d.drain left).getLast? = some last) (herror : last.result = .error fault) :
    ∃ error, fault = .stream error := by
  obtain ⟨e, rest, he, rfl, -⟩ := h.last_of_drain hlast
  obtain ⟨place, -, hfault⟩ := he.atFault_of_error herror
  exact hfault.exists_error

theorem Live.result_of_drain {last : Call} (h : d.Live)
    (hlast : (d.drain left).getLast? = some last) :
    (∀ data, last.result ≠ .ok (.block data)) ∧
      ∀ fault, last.result = .error fault → fault.isUsage = false := by
  obtain ⟨e, rest, -, -, hblock⟩ := h.last_of_drain hlast
  refine ⟨hblock, fun fault herror => ?_⟩
  obtain ⟨error, rfl⟩ := h.error_of_drain hlast herror
  rfl

end Decompressor

end Stream

end Bunzip
