import Bunzip.Proofs.Stream.Chunking
import Bunzip.Stream.Recycling

/-!
# Recycled buffers are invisible

A `Recycler` is a decompressor with the buffers that it hands from block to block. Whatever earlier
blocks left in them, its calls are those of the decompressor (`Recycler.call_eq`), and so are the
calls on chunk after chunk (`Recycler.feed_eq`): the buffers that a block is lent are empty, and
those that it hands back are not read again before they are cleared.
-/

namespace Bunzip.Stream

open Block (Buffers)

/-- What can come behind a field, as far as the buffers go. -/
structure Phase.Behind (field : Field) (phase : Phase) : Prop where
  no_header : phase ≠ .field .streamHeader
  inBlock : phase.inBlock = field.inBlock
  /-- A payload begins without bytes. -/
  empty : ∀ payload, phase = .payload payload → payload.expansion.bytes = #[]

namespace Field

open Scan

variable {field next : Field} {phase : Phase} {blockSize table symbol : Nat} {draft : Draft}
  {length : Int32}

theorem behind_field (h : field.inBlock = true) (hnext : (Phase.field next).inBlock = true) :
    (Phase.field next).Behind field := by
  refine ⟨fun heq => ?_, hnext.trans h.symm, nofun⟩
  cases heq
  cases hnext

theorem behind_afterLength (hin : field.inBlock = true)
    (h : afterLength blockSize draft table symbol length = .ok phase) : phase.Behind field := by
  unfold afterLength at h
  split at h
  · cases h; exact behind_field hin rfl
  split at h
  · cases h; exact behind_field hin rfl
  cases hdecoder : draft.setup.decoder with
  | error fault => rw [hdecoder] at h; cases h
  | ok decoder =>
    rw [hdecoder] at h
    cases h
    refine ⟨nofun, hin.symm, fun payload hpayload => ?_⟩
    cases hpayload
    rfl

theorem behind_storeLength (hin : field.inBlock = true)
    (h : storeLength blockSize draft table symbol length = .ok phase) : phase.Behind field := by
  obtain ⟨head, used, setup⟩ := draft
  unfold storeLength at h
  cases hset : setup.setLength table symbol length with
  | error fault => simp only [hset] at h; cases h
  | ok after =>
    simp only [hset] at h
    exact behind_afterLength hin h

theorem gives_readCodeLength_behind (draft : Draft) (cursor : LengthCursor) :
    Gives (Phase.Behind (.codeLength draft cursor)) (readCodeLength blockSize draft cursor) := by
  have hfield {draft' : Draft} {cursor' : LengthCursor} :
      Gives (Phase.Behind (.codeLength draft cursor))
        (pure (.field (.codeLength draft' cursor')) : Scan Phase) :=
    gives_pure (behind_field rfl rfl)
  unfold readCodeLength
  split
  · exact gives_bind fun _ => hfield
  · exact gives_bind fun _ => hfield
  refine gives_bind fun _ => gives_ite (fun _ => hfield) fun _ => gives_ofExcept fun phase h => ?_
  exact behind_storeLength rfl h

/-- No field is followed by a header, a block begins with its parameters only, and its payload
begins without bytes. -/
theorem gives_read_behind (blockSize : Nat) (streamCrc : UInt32) (field : Field) :
    Gives (fun after => after.phase.Behind field) (field.read blockSize streamCrc) := by
  have wrap {scan : Scan Phase} (hscan : Gives (Phase.Behind field) scan) :
      Gives (fun after => after.phase.Behind field)
        (do return ⟨← scan, blockSize, streamCrc⟩ : Scan State) :=
    hscan.bind fun _ hphase => gives_pure hphase
  cases field with
  | streamHeader =>
    refine gives_bind fun _ => gives_ite (fun _ => gives_fail _) fun _ => gives_bind fun _ => ?_
    exact gives_ite (fun _ => gives_fail _) fun _ => gives_pure ⟨nofun, rfl, nofun⟩
  | blockHeader =>
    refine wrap (gives_bind fun _ => gives_ite (fun _ => gives_bind fun _ => ?_) fun _ => ?_)
    · exact gives_ite (fun _ => gives_fail _) fun _ => gives_pure ⟨nofun, rfl, nofun⟩
    · exact gives_ite (fun _ => gives_bind fun _ => gives_pure ⟨nofun, rfl, nofun⟩)
        fun _ => gives_fail _
  | blockParams stored =>
    exact wrap (gives_bind fun _ => gives_bind fun _ => gives_pure (behind_field rfl rfl))
  | usedGroups head => exact wrap (gives_bind fun _ => gives_pure (behind_field rfl rfl))
  | usedBitmaps head groups =>
    refine wrap (gives_bind fun _ => gives_bind fun _ => gives_ite (fun _ => gives_fail _) ?_)
    exact fun _ => gives_ite (fun _ => gives_fail _) fun _ => gives_pure (behind_field rfl rfl)
  | selectorCount draft =>
    refine wrap (gives_bind fun _ => gives_ite (fun _ => gives_fail _) fun _ => gives_pure ?_)
    exact behind_field rfl rfl
  | selector draft index =>
    refine wrap (gives_bind fun _ => gives_bind fun _ => gives_ite (fun _ => ?_) fun _ => ?_)
    · exact gives_pure (behind_field rfl rfl)
    · exact gives_pure (behind_field rfl rfl)
  | codeLength draft cursor => exact wrap (gives_readCodeLength_behind draft cursor)

end Field

/-! ## Reading -/

/-- The buffers that a block has are empty: its bytes are with the payload, and its walk has not
begun. -/
def Phase.Lent (buffers : Buffers) (phase : Phase) : Prop :=
  phase.inBlock = true → buffers = Buffers.empty

theorem Phase.lent_of_outside {phase : Phase} {buffers : Buffers} (h : phase.inBlock = false) :
    phase.Lent buffers :=
  fun hin => absurd hin (by simp [h])

namespace State

variable {s : State} {buffers : Buffers} {field : Field} {r : BitReader}

theorem lent_lend {phase : Phase} (h : (Phase.field field).Lent buffers)
    (hbehind : phase.Behind field) : phase.Lent (field.lend buffers) := by
  intro hphase
  have hin := hbehind.inBlock.symm.trans hphase
  cases field with
  | streamHeader => cases hin
  | blockHeader => cases hin
  | blockParams => exact buffers.reset_eq
  | _ => exact h rfl

theorem collect_eq (h : s.phase.Lent buffers)
    (hempty : ∀ payload, s.phase = .payload payload → payload.expansion.bytes = #[]) :
    s.collect buffers = (s, buffers) := by
  obtain ⟨phase, blockSize, streamCrc⟩ := s
  cases phase with
  | payload payload =>
    obtain ⟨head, expansion, decoder⟩ := payload
    have hbytes : expansion.bytes = #[] := hempty _ rfl
    obtain rfl : buffers = Buffers.empty := h rfl
    simp only [collect, Buffers.empty, ← hbytes]
  | _ => rfl

theorem advanceIn_field_eq_ok {blockSize : Nat} {streamCrc : UInt32} {after : State}
    {rest : BitReader} (h : (Phase.field field).Lent buffers) (hhas : r.hasBits field.need = true)
    (hread : field.read blockSize streamCrc r = .ok after rest) :
    after.phase.Lent (field.lend buffers) ∧
      advanceIn buffers ⟨.field field, blockSize, streamCrc⟩ r =
        advanceIn (field.lend buffers) after rest := by
  have hbehind := Field.gives_read_behind _ _ _ _ _ _ hread
  have hlent := lent_lend h hbehind
  refine ⟨hlent, ?_⟩
  rw [advanceIn, if_pos hhas]
  split
  · rename_i herror
    rw [hread] at herror
    cases herror
  · rename_i hok
    rw [hread] at hok
    cases hok
    simp only [collect_eq hlent hbehind.empty]

/-- With cleared buffers a payload is read as without any, and it hands them back at its end. -/
theorem readPayloadIn_eq (blockSize : Nat) (streamCrc : UInt32) (payload : Block.Payload)
    (r : BitReader) :
    (readPayloadIn #[] blockSize streamCrc payload r).1 =
        readPayload blockSize streamCrc payload r ∧
      (readPayload blockSize streamCrc payload r).state.phase.Lent
        (readPayloadIn #[] blockSize streamCrc payload r).2 := by
  unfold readPayloadIn readPayload
  rw [Block.Payload.runIn_empty]
  cases payload.run r with
  | error fault after => exact ⟨rfl, Phase.lent_of_outside rfl⟩
  | ok readout after =>
    cases readout with
    | none => exact ⟨rfl, fun _ => rfl⟩
    | some readout => exact ⟨rfl, Phase.lent_of_outside rfl⟩

/-- Reading does not depend on what the buffers held. -/
theorem advanceIn_eq (h : s.phase.Lent buffers) (r : BitReader) :
    (s.advanceIn buffers r).1 = s.advance r ∧
      (s.advance r).state.phase.Lent (s.advanceIn buffers r).2 := by
  fun_induction advance s r generalizing buffers with
  | case1 r blockSize streamCrc field hhas fault rest hread =>
    rw [advanceIn, if_pos hhas]
    split
    · rename_i herror
      rw [hread] at herror
      cases herror
      exact ⟨rfl, Phase.lent_of_outside rfl⟩
    · rename_i hok
      rw [hread] at hok
      cases hok
  | case2 r blockSize streamCrc field hhas after rest hread ih =>
    obtain ⟨hlent, hstep⟩ := advanceIn_field_eq_ok h hhas hread
    rw [hstep]
    exact ih hlent
  | case3 r blockSize streamCrc field hhas =>
    rw [advanceIn, if_neg hhas]
    exact ⟨rfl, h⟩
  | case4 r payload blockSize streamCrc =>
    obtain rfl : buffers = Buffers.empty := h rfl
    rw [advanceIn]
    exact readPayloadIn_eq blockSize streamCrc payload r
  | case5 => rw [advanceIn]; exact ⟨rfl, Phase.lent_of_outside rfl⟩
  | case6 => rw [advanceIn]; exact ⟨rfl, Phase.lent_of_outside rfl⟩

end State

/-! ## Calls -/

namespace Decompressor

variable {d : Decompressor} {buffers : Buffers}

theorem lent_settle {stop : Stop} (h : stop.state.phase.Lent buffers) (chunk : List UInt8) :
    (settle stop chunk).next.state.phase.Lent buffers := by
  obtain ⟨state, r, halt⟩ := stop
  cases halt with
  | complete readout =>
    simp only [settle, deliver]
    split
    · exact Phase.lent_of_outside rfl
    split
    · exact Phase.lent_of_outside rfl
    · exact h
  | _ => exact h

theorem settleIn_eq {stop : Stop} (h : stop.state.phase.Lent buffers) (chunk : List UInt8) :
    (settleIn buffers stop chunk).1 = settle stop chunk ∧
      (settle stop chunk).next.state.phase.Lent (settleIn buffers stop chunk).2 := by
  unfold settleIn
  dsimp only
  split
  · exact ⟨rfl, fun _ => rfl⟩
  · exact ⟨rfl, lent_settle h chunk⟩

/-- A call does not depend on what the buffers held. -/
theorem decompressIn_eq (h : d.state.phase.Lent buffers) (chunk : List UInt8) :
    (d.decompressIn buffers chunk).1 = d.decompress chunk ∧
      (d.decompress chunk).next.state.phase.Lent (d.decompressIn buffers chunk).2 := by
  obtain ⟨⟨phase, blockSize, streamCrc⟩, bits⟩ := d
  cases phase with
  | ended => exact ⟨rfl, Phase.lent_of_outside rfl⟩
  | closed => exact ⟨rfl, Phase.lent_of_outside rfl⟩
  | _ =>
    obtain ⟨hstop, hlent⟩ := State.advanceIn_eq h (BitReader.bind bits chunk)
    simp only [decompressIn, decompress, hstop]
    exact settleIn_eq hlent chunk

end Decompressor

/-- A decompressor with the buffers that it hands from block to block. -/
structure Recycler where
  decompressor : Decompressor
  buffers : Buffers
  lent : decompressor.state.phase.Lent buffers

namespace Recycler

def start : Recycler := ⟨Decompressor.start, Buffers.empty, fun _ => rfl⟩

def call (m : Recycler) (chunk : List UInt8) : Call :=
  (m.decompressor.decompressIn m.buffers chunk).1

/-- A call with this decompressor's buffers is the call of a decompressor without any. -/
theorem call_eq (m : Recycler) (chunk : List UInt8) :
    m.call chunk = m.decompressor.decompress chunk :=
  (Decompressor.decompressIn_eq m.lent chunk).1

/-- The decompressor and the buffers after the call on a chunk. -/
def next (m : Recycler) (chunk : List UInt8) : Recycler where
  decompressor := (m.call chunk).next
  buffers := (m.decompressor.decompressIn m.buffers chunk).2
  lent := by
    rw [call_eq]
    exact (Decompressor.decompressIn_eq m.lent chunk).2

theorem decompressor_next (m : Recycler) (chunk : List UInt8) :
    (m.next chunk).decompressor = (m.decompressor.decompress chunk).next :=
  congrArg Call.next (m.call_eq chunk)

/-- The calls on a chunk and on what each of them left, for as long as they give blocks, and the
recycler after them. -/
def drain (m : Recycler) (chunk : List UInt8) : List Call × Recycler :=
  match _h : (m.call chunk).result with
  | .ok (.block _) =>
    let (calls, last) := (m.next chunk).drain (m.call chunk).rest
    (m.call chunk :: calls, last)
  | _ => ([m.call chunk], m.next chunk)
termination_by m.decompressor.weight chunk
decreasing_by
  show (m.call chunk).next.weight (m.call chunk).rest < m.decompressor.weight chunk
  rw [call_eq] at _h ⊢
  exact Decompressor.weight_decompress_lt _h

/-- Drains chunk after chunk until the stream ends or a fault is found. -/
def feed (m : Recycler) : List (List UInt8) → List (List Call)
  | [] => []
  | chunk :: chunks =>
    let (calls, next) := m.drain chunk
    match calls.getLast? with
    | some ⟨.ok .suspended, _, _, _⟩ => calls :: next.feed chunks
    | _ => [calls]

theorem drain_eq (m : Recycler) (chunk : List UInt8) :
    (m.drain chunk).1 = m.decompressor.drain chunk ∧
      (m.drain chunk).2.decompressor = m.decompressor.after (m.decompressor.drain chunk) := by
  fun_induction drain m chunk with
  | case1 m chunk data hdata calls last hrest ih =>
    rw [hrest, decompressor_next, call_eq] at ih
    rw [call_eq] at hdata
    rw [Decompressor.drain_of_block hdata, call_eq]
    exact ⟨congrArg (_ :: ·) ih.1, ih.2⟩
  | case2 m chunk hne =>
    rw [call_eq] at hne
    rw [Decompressor.drain_of_not_block hne]
    exact ⟨by rw [call_eq], m.decompressor_next chunk⟩

/-- However often the buffers are handed on, chunks are read as without them. -/
theorem feed_eq (m : Recycler) (chunks : List (List UInt8)) :
    m.feed chunks = m.decompressor.feed chunks := by
  induction chunks generalizing m with
  | nil => rfl
  | cons chunk chunks ih =>
    obtain ⟨hcalls, hnext⟩ := m.drain_eq chunk
    obtain ⟨last, hlast⟩ := Option.isSome_iff_exists.1
      (List.getLast?_isSome.2 (m.decompressor.drain_ne_nil chunk))
    have hafter : (m.drain chunk).2.decompressor = last.next :=
      hnext.trans (Decompressor.after_of_getLast? hlast)
    simp only [feed, hcalls, hlast]
    by_cases hsuspended : last.result = .ok .suspended
    · rw [Decompressor.feed_of_suspended hlast hsuspended, ← hafter, ← ih]
      obtain ⟨result, rest, reserved, next⟩ := last
      cases hsuspended
      rfl
    · rw [Decompressor.feed_of_not_suspended hlast hsuspended]
      split
      · rename_i heq
        cases heq
        exact absurd rfl hsuspended
      · rfl

end Recycler

end Bunzip.Stream
