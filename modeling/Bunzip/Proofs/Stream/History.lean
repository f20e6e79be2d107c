import Bunzip.Proofs.Stream.Begun
import Bunzip.Proofs.Stream.Progress

/-!
# What a stream has read

The bits that lead to a state are those of a text so far: a header, readable blocks, and a block
that has begun (`State.Told`). A call keeps this, and says of the bits it took that they complete a
block or the stream (`State.Told.advance`). For a decompressor, `Told` adds what was given and the
checksum of the stream to it, and every call on any chunk keeps it (`Decompressor.Told.decompress`).
-/

namespace Bunzip.Stream

open Scan Block

namespace StreamText

variable {t : StreamText}

def frontBits (t : StreamText) : List Bool :=
  Bits.ofNat 24 Format.signature ++ Bits.ofNat 8 (0x30 + t.digit) ++
    t.blocks.flatMap BlockText.wordBits

theorem wordBits_eq_front (t : StreamText) :
    t.wordBits = t.frontBits ++ Decompressor.endBits t.checksum := by
  rw [wordBits, frontBits, Decompressor.endBits, ← List.append_assoc]

def push (t : StreamText) (b : BlockText) : StreamText := { t with blocks := t.blocks ++ [b] }

theorem frontBits_push (t : StreamText) (b : BlockText) :
    (t.push b).frontBits = t.frontBits ++ b.wordBits := by
  rw [frontBits, frontBits, push, List.flatMap_append, List.flatMap_singleton, ← List.append_assoc]

theorem checksum_push (t : StreamText) (b : BlockText) :
    (t.push b).checksum = Crc.fold t.checksum b.stored := by
  rw [checksum, checksum, push, List.map_append, Crc.foldAll, List.foldl_append]
  rfl

theorem Readable.push {b : BlockText} (h : t.Readable) (hb : b.Readable t.blockSize) :
    (t.push b).Readable := by
  refine ⟨h.digit_ge, h.digit_le, fun other hother => ?_⟩
  rcases List.mem_append.1 hother with hother | hother
  · exact h.blocks_readable other hother
  · rwa [List.mem_singleton.1 hother]

end StreamText

/-! ## States -/

namespace State

/-- The blocks and the bits that lead to a state. -/
inductive Told : State → List BlockText → List Bool → Prop
  | start : Told start [] []
  | begun {t : StreamText} {phase : Phase} {begun : List Bool} (ht : t.Readable)
    (h : phase.Begun t.blockSize begun) :
    Told ⟨phase, t.blockSize, t.checksum⟩ t.blocks (t.frontBits ++ begun)

/-- The end of the stream was read behind its blocks. -/
def Ends (s : State) (blocks : List BlockText) (word : List Bool) : Prop :=
  s.phase = .ended ∧ ∃ t : StreamText, t.Readable ∧ t.blocks = blocks ∧ t.wordBits = word ∧
    t.checksum = s.streamCrc

variable {blocks : List BlockText} {word : List Bool} {field : Field}
variable {blockSize : Nat} {streamCrc : UInt32}

theorem Told.streamCrc_eq {s : State} (h : s.Told blocks word) :
    s.streamCrc = Crc.foldAll (blocks.map (·.stored)) := by
  cases h with
  | start => rfl
  | begun => rfl

theorem Told.tells_read (h : Told ⟨.field field, blockSize, streamCrc⟩ blocks word) :
    Tells (field.read blockSize streamCrc) fun back after =>
      after.Told blocks (word ++ back) ∨ after.Ends blocks (word ++ back) := by
  cases h with
  | start =>
    refine Field.tells_readStreamHeader.mono ?_
    rintro back after ⟨digit, hge, hle, rfl, rfl⟩
    have ht : (StreamText.mk digit []).Readable := ⟨hge, hle, fun b hb => by cases hb⟩
    have hphase : (Phase.field .blockHeader).Begun (StreamText.mk digit []).blockSize [] := rfl
    have htold := Told.begun ht hphase
    rw [StreamText.frontBits, List.flatMap_nil, List.append_nil, List.append_nil] at htold
    exact .inl htold
  | @begun t _ begun ht h =>
    refine (Field.tells_read h).mono ?_
    rintro back ⟨phase, blockSize, streamCrc⟩ ⟨rfl, rfl, hphase | ⟨hphase, hend⟩⟩
    · rw [List.append_assoc]
      exact .inl (.begun ht hphase)
    · refine .inr ⟨hphase, t, ht, rfl, ?_, rfl⟩
      rw [List.append_assoc, hend, StreamText.wordBits_eq_front]

end State

/-! ## Where the reading stops -/

/-- What has been read, `total` together with the bits that are left, where the reading of a chunk
stops. -/
def Stop.Told (blocks : List BlockText) (total : List Bool) : Stop → Prop
  | ⟨state, r, .starved⟩ => ∃ word, total = word ++ r.bits ∧ state.Told blocks word
  | ⟨state, r, .ended⟩ => ∃ word, total = word ++ r.bits ∧ state.Ends blocks word
  | ⟨state, r, .complete readout⟩ => ∃ (t : StreamText) (b : BlockText), t.Readable ∧
    t.blocks = blocks ∧ b.Completed t.blockSize readout ∧
      total = t.frontBits ++ b.wordBits ++ r.bits ∧
      state = ⟨.field .blockHeader, t.blockSize, t.checksum⟩
  | ⟨state, _, .failed _⟩ =>
    state.phase = .ended ∧ state.streamCrc = Crc.foldAll (blocks.map (·.stored))

namespace State

variable {s : State} {blocks : List BlockText} {word : List Bool} {r : BitReader}
variable {blockSize : Nat} {streamCrc : UInt32}

theorem Told.readPayload {p : Payload} (h : Told ⟨.payload p, blockSize, streamCrc⟩ blocks word)
    (r : BitReader) :
    (State.readPayload blockSize streamCrc p r).Told blocks (word ++ r.bits) := by
  cases h with
  | @begun t _ begun ht h =>
  obtain ⟨b, hserved, rfl⟩ := h
  unfold State.readPayload
  split
  · exact ⟨rfl, rfl⟩
  · rename_i after next hrun
    obtain ⟨c, back, hbits, htext, hc⟩ := hserved.run ht.blockSize_le hrun
    refine ⟨t.frontBits ++ c.wordBits, ?_, .begun ht ⟨c, hc, rfl⟩⟩
    rw [hbits, htext]
    simp only [List.append_assoc]
  · rename_i readout after next hrun
    obtain ⟨c, back, hbits, htext, hc⟩ := hserved.run ht.blockSize_le hrun
    refine ⟨t, c, ht, rfl, hc, ?_, rfl⟩
    rw [bits_refill_ite, hbits, htext]
    simp only [List.append_assoc]

/-- What the reading of a chunk adds to what was read before. -/
theorem Told.advance (h : s.Told blocks word) (r : BitReader) :
    (s.advance r).Told blocks (word ++ r.bits) := by
  fun_induction State.advance s r generalizing word with
  | case1 => exact ⟨rfl, h.streamCrc_eq⟩
  | case2 r blockSize streamCrc field _ after next hread ih =>
    obtain ⟨back, hbits, hafter | hends⟩ := h.tells_read _ _ _ hread
    · rw [hbits, ← List.append_assoc]
      exact ih hafter
    · -- the reading stops right behind the end of the stream
      obtain ⟨phase, blockSize, streamCrc⟩ := after
      obtain rfl : phase = .ended := hends.1
      rw [State.advance]
      exact ⟨word ++ back, by rw [hbits, List.append_assoc], hends⟩
  | case3 => exact ⟨word, rfl, h⟩
  | case4 r p blockSize streamCrc => exact h.readPayload r
  | case5 =>
    cases h with
    | begun _ h => cases h
  | case6 =>
    cases h with
    | begun _ h => cases h

end State

theorem State.chunk_advance_suffix (s : State) (r : BitReader)
    (h : ∀ fault, (s.advance r).halt ≠ .failed fault) : (s.advance r).reader.chunk <:+ r.chunk := by
  generalize hstop : s.advance r = stop at h ⊢
  obtain ⟨state, last, halt⟩ := stop
  have hwaits (hhalt : (s.advance r).halt = .starved ∨ (s.advance r).halt = .ended) :
      (s.advance r).reader.chunk <:+ r.chunk := by
    obtain ⟨n, -, hreader, -⟩ := State.advance_waits hhalt
    rw [hreader]
    exact r.chunk_skip_suffix n
  rw [hstop] at hwaits
  cases halt with
  | starved => exact hwaits (.inl rfl)
  | ended => exact hwaits (.inr rfl)
  | failed fault => exact absurd rfl (h fault)
  | complete readout =>
    obtain ⟨m, n, -, -, -, rfl⟩ := State.advance_complete hstop
    have hskip := r.chunk_skip_suffix n
    show (ite _ _ _ : BitReader).chunk <:+ r.chunk
    split
    · exact (BitReader.chunk_refill_suffix _).trans hskip
    · exact hskip

/-! ## Calls -/

/-- The blocks that were given, and the bytes of chunks that were used for them and for what is
being read. -/
def Decompressor.Reading (d : Decompressor) (blocks : List BlockText) (taken : List UInt8) : Prop :=
  ∃ word, d.state.Told blocks word ∧ Bits.ofBytes taken = word ++ d.bits.bits

/-- What a call adds to what was read before it. -/
def Call.Told (blocks : List BlockText) (taken chunk : List UInt8) (call : Call) : Prop :=
  ∃ used, chunk = used ++ call.rest ∧
    match call.result with
    | .ok .suspended => call.next.Reading blocks (taken ++ used)
    | .ok (.block data) => ∃ b : BlockText, data.toList = b.data ∧
      call.next.Reading (blocks ++ [b]) (taken ++ used)
    | .ok .endOfStream => call.next.state.phase = .ended ∧ ∃ t : StreamText, t.Readable ∧
      t.blocks = blocks ∧ t.checksum = call.next.state.streamCrc ∧
        Bits.ofBytes (taken ++ used) = t.wordBits ++ call.next.bits.bits
    | .error _ => call.next.state.phase = .ended ∧
      call.next.state.streamCrc = Crc.foldAll (blocks.map (·.stored))

namespace Decompressor

variable {d : Decompressor} {blocks : List BlockText} {taken chunk : List UInt8}

theorem reading_start : start.Reading [] [] := ⟨[], .start, rfl⟩

theorem Reading.phase_ne (h : d.Reading blocks taken) :
    d.state.phase ≠ .ended ∧ d.state.phase ≠ .closed := by
  obtain ⟨word, htold, -⟩ := h
  generalize d.state = state at htold ⊢
  cases htold with
  | start => exact ⟨nofun, nofun⟩
  | begun _ h =>
    constructor <;> rintro rfl <;> cases h

/-- The blocks that were given have their checksums, and were read behind a header. -/
theorem Reading.front (h : d.Reading blocks taken) : (∀ b ∈ blocks, b.stored = Crc.ofBytes b.data) ∧
    d.state.streamCrc = Crc.foldAll (blocks.map (·.stored)) ∧
    (blocks ≠ [] → ∃ digit, (StreamText.mk digit blocks).frontBits <+: Bits.ofBytes taken) := by
  obtain ⟨word, htold, htaken⟩ := h
  refine ⟨?_, htold.streamCrc_eq, ?_⟩
  · generalize d.state = state at htold
    cases htold with
    | start => exact fun b hb => by cases hb
    | begun ht => exact fun b hb => (ht.blocks_readable b hb).straight_valid.stored_eq
  · generalize d.state = state at htold
    cases htold with
    | start => exact fun hne => absurd rfl hne
    | @begun t _ begun =>
      refine fun _ => ⟨t.digit, ?_⟩
      rw [htaken, List.append_assoc]
      exact List.prefix_append _ _

/-- What was read of the used bytes, if `r` is where the reading of the chunk stopped. -/
theorem ofBytes_used {used : List UInt8} {word : List Bool} {r : BitReader}
    (hused : used ++ r.chunk = chunk)
    (htotal : Bits.ofBytes (taken ++ chunk) = word ++ r.bits) :
    Bits.ofBytes (taken ++ used) = word ++ r.release.bits := by
  refine (List.append_left_inj (Bits.ofBytes r.chunk)).1 ?_
  rw [← Bits.ofBytes_append, List.append_assoc taken, hused, htotal, List.append_assoc,
    BitReader.bits_release]

/-- A complete block is given if its checksum is right. -/
theorem told_deliver {t : StreamText} {b : BlockText} {r : BitReader} {readout : Readout}
    (ht : t.Readable) (hb : b.Completed t.blockSize readout)
    (htotal : Bits.ofBytes (taken ++ chunk) = t.frontBits ++ b.wordBits ++ r.bits)
    (hsuffix : r.chunk <:+ chunk) :
    (deliver ⟨.field .blockHeader, t.blockSize, t.checksum⟩ r readout chunk).Told t.blocks taken
      chunk := by
  obtain ⟨walk, rfl, hgives⟩ := hb.readout_eq
  obtain ⟨data, after, hdrain, hdata, hcrc, hstored⟩ :=
    Readout.drain_start hgives b.randomised b.stored
  have hblock : data.toList = b.data := hdata
  simp only [deliver, hdrain]
  split
  · exact ⟨[], rfl, rfl, rfl⟩
  · rename_i crc hcheck
    obtain ⟨used, hused⟩ := hsuffix
    have hvalue : crc = b.stored ∧ b.stored = Crc.ofBytes b.data := by
      rw [Readout.checkCrc, hcrc, hstored, hblock] at hcheck
      split at hcheck
      · rename_i heq
        cases hcheck
        exact ⟨heq, heq.symm⟩
      · cases hcheck
    obtain ⟨rfl, hright⟩ := hvalue
    refine ⟨used, hused.symm, b, hblock, (t.push b).frontBits, ?_, ?_⟩
    · rw [← StreamText.checksum_push]
      have htold := State.Told.begun (ht.push (hb.readable hright))
        (show (Phase.field .blockHeader).Begun (t.push b).blockSize [] from rfl)
      rw [List.append_nil] at htold
      exact htold
    · rw [StreamText.frontBits_push]
      exact ofBytes_used hused htotal

/-- What a call adds to what was read before it. -/
theorem Reading.decompress (h : d.Reading blocks taken) (chunk : List UInt8) :
    (d.decompress chunk).Told blocks taken chunk := by
  have hopen := h.phase_ne.2
  obtain ⟨word, htold, htaken⟩ := h
  have hstop := htold.advance (BitReader.bind d.bits chunk)
  rw [BitReader.bits_bind, ← List.append_assoc, ← htaken, ← Bits.ofBytes_append] at hstop
  have hsuffix := d.state.chunk_advance_suffix (BitReader.bind d.bits chunk)
  rw [decompress_eq_settle hopen]
  generalize d.state.advance (BitReader.bind d.bits chunk) = stop at hsuffix hstop ⊢
  obtain ⟨state, r, halt⟩ := stop
  cases halt with
  | starved =>
    obtain ⟨word, htotal, htold⟩ := hstop
    refine ⟨chunk, (List.append_nil _).symm, word, htold, ?_⟩
    rw [htotal]
    exact congrArg (word ++ ·) r.bits_suspend.symm
  | ended =>
    obtain ⟨word, htotal, hphase, t, ht, hblocks, rfl, hchecksum⟩ := hstop
    obtain ⟨used, hused⟩ := hsuffix nofun
    exact ⟨used, hused.symm, hphase, t, ht, hblocks, hchecksum, ofBytes_used hused htotal⟩
  | failed => exact ⟨[], rfl, hstop⟩
  | complete readout =>
    obtain ⟨t, b, ht, rfl, hb, htotal, rfl⟩ := hstop
    exact told_deliver ht hb htotal (hsuffix nofun)

end Decompressor

end Bunzip.Stream
