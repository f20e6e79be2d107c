import Bunzip.Proofs.Stream.Suspension

/-!
# Calls and drains end

Each field and each symbol takes a bit of the unread ones, and each byte of a complete block one of
the bytes that are left in it (`Place.Advances`). So a call comes to finitely many places
(`Place.length_le_budget`). A call that gives a block has read a bit as well, in whatever state it
began, and a caller who goes on while there are blocks soon comes to a call that gives none
(`Decompressor.calls_and_drains_end`).
-/

namespace Bunzip

open Scan

namespace Block

/-! ## Data of a block -/

/-- The most copies of a byte that are given in a row before the walk goes on. -/
def mostCopies : Nat := 256

/-- The most bytes that a readout still gives. -/
def Readout.atMost (r : Readout) : Nat := mostCopies * r.walk.left + r.copies

variable {r after : Readout}

theorem Readout.copies_fill_le (h : r.fill = .ok after) : after.copies ≤ mostCopies := by
  have hone : 1 ≤ mostCopies := by decide
  unfold Readout.fill at h
  split at h
  · cases h
  split at h
  · cases h
    exact hone
  split at h
  · cases h
    exact hone
  split at h
  · cases h
    exact hone
  split at h
  · cases h
  · rename_i count last hlast
    cases h
    exact count.toNat_lt

theorem Readout.atMost_read_lt {byte : UInt8} (h : r.read = .ok (some byte, after)) :
    after.atMost < r.atMost := by
  unfold Readout.read at h
  split at h
  · simp only [Readout.give, Except.ok.injEq, Prod.mk.injEq] at h
    obtain ⟨-, rfl⟩ := h
    simp only [Readout.atMost]
    omega
  split at h
  · cases h
  split at h
  · cases h
  · rename_i mid hmid
    have hleft := Readout.left_fill hmid
    have hcopies := Readout.copies_fill_le hmid
    simp only [Readout.give, Except.ok.injEq, Prod.mk.injEq] at h
    obtain ⟨-, rfl⟩ := h
    simp only [Readout.atMost, mostCopies] at *
    omega

/-- The data of a complete payload begin with all of its bytes. -/
theorem Payload.atMost_readout {p : Payload} {readout : Readout} (h : p.readout = .ok readout) :
    readout.atMost = mostCopies * p.expansion.bytes.size := by
  unfold Payload.readout at h
  split at h
  · cases h
  rename_i walk hstart
  cases h
  unfold Walk.start at hstart
  split at hstart
  · cases hstart
  split at hstart
  · cases hstart
  split at hstart
  · cases hstart
  · cases hstart
    rfl

end Block

namespace Stream

open Block Relation

/-! ## Places -/

namespace Place

/-- What is read next takes a bit, or a byte of those that are left in a block; no run of copies is
empty. -/
def Advances : Place → Prop
  | .field next blockSize streamCrc r => ∀ after rest,
    next.read blockSize streamCrc r = .ok after rest → rest.bits.length < r.bits.length
  | .symbol p r => ∀ done after rest,
    p.step r = .ok done (after, rest) → rest.bits.length < r.bits.length
  | .byte readout => (∀ after, readout.fill = .ok after → 0 < after.copies) ∧
    ∀ byte after, readout.read = .ok (some byte, after) → after.atMost < readout.atMost

/-- The most bytes that the data of a block have. -/
def mostData : Nat := mostCopies * (9 * Format.blockUnit)

/-- The most places that may follow. -/
def budget : Place → Nat
  | .field _ _ _ r => r.bits.length + mostData
  | .symbol _ r => r.bits.length + mostData
  | .byte readout => readout.atMost

variable {place next : Place}

theorem InRange.advances (h : place.InRange) : place.Advances := by
  cases place with
  | field field blockSize streamCrc r =>
    intro after rest hread
    exact Field.spends_read _ _ _ _ _ _ hread
  | symbol p r =>
    intro done after rest hstep
    exact Payload.length_bits_lt_of_step h.decoder.spends_next hstep
  | byte readout => exact ⟨h.2, fun byte after => Readout.atMost_read_lt⟩

/-- Where a block is complete, it has no more bytes than the stream allows. -/
theorem Told.size_le {p after : Payload} {r rest : BitReader} (h : (Place.symbol p r).Told)
    (hstep : p.step r = .ok true (after, rest)) :
    after.expansion.bytes.size ≤ 9 * Format.blockUnit := by
  obtain ⟨t, b, ht, hserved⟩ := h
  obtain ⟨c, -, order, -, -, -, -, -, -, hcolumn, hfits⟩ := hserved.finish hstep
  rw [← hcolumn] at hfits
  exact Nat.le_trans hfits (Nat.mul_le_mul_right _ ht.digit_le)

/-- Each place has less to come than the one before it. -/
theorem budget_lt (h : place.Told) (hstep : place.Step next) : next.budget < place.budget := by
  have hadvances := h.inRange.advances
  cases hstep with
  | @field _ _ _ r rest after _ hbits hread hnext =>
    have hlt := hadvances _ _ hread
    obtain ⟨phase, blockSize, streamCrc⟩ := after
    cases phase with
    | field => cases hnext; exact Nat.add_lt_add_right hlt _
    | payload => cases hnext; exact Nat.add_lt_add_right hlt _
    | ended => cases hnext
    | closed => cases hnext
  | symbol hbits hstep => exact Nat.add_lt_add_right (hadvances _ _ _ hstep) _
  | @complete p after r rest readout hbits hstep hreadout =>
    have hsize := Nat.mul_le_mul_left mostCopies (h.size_le hstep)
    have hlt := hadvances _ _ _ hstep
    rw [← Payload.atMost_readout hreadout] at hsize
    show readout.atMost < r.bits.length + mostData
    unfold mostData
    omega
  | byte hread => exact hadvances.2 _ _ hread

/-- A course has at most as many further places as its first one allows. -/
theorem length_le_budget {places : List Place} (h : place.Told)
    (hcourse : (place :: places).IsChain Step) : places.length ≤ place.budget := by
  induction places generalizing place with
  | nil => exact Nat.zero_le _
  | cons next places ih =>
    obtain ⟨hstep, hcourse⟩ := List.isChain_cons_cons.1 hcourse
    have hrest := ih (h.step hstep) hcourse
    have hlt := budget_lt h hstep
    rw [List.length_cons]
    omega

theorem exists_last (h : place.Told) :
    ∃ last, ReflTransGen Step place last ∧ ∀ next, ¬ last.Step next := by
  induction hbudget : place.budget using Nat.strongRecOn generalizing place with
  | ind n ih =>
    by_cases hnext : ∃ next, place.Step next
    · obtain ⟨next, hstep⟩ := hnext
      obtain ⟨last, hpath, hlast⟩ := ih _ (hbudget ▸ budget_lt h hstep) (h.step hstep) rfl
      exact ⟨last, .head hstep hpath, hlast⟩
    · exact ⟨place, .refl, fun next hstep => hnext ⟨next, hstep⟩⟩

end Place

/-! ## Calls and drains -/

namespace Decompressor

variable {d : Decompressor} {chunk : List UInt8}

def available (d : Decompressor) (chunk : List UInt8) : Nat := d.bits.pending + 8 * chunk.length

theorem available_eq (d : Decompressor) (chunk : List UInt8) :
    d.available chunk = (BitReader.bind d.bits chunk).bits.length := by
  rw [available, BitReader.bits_bind, List.length_append, Bits.length_ofBytes, BitState.pending_eq]

theorem budget_of_place? {first : Place}
    (h : d.state.place? (BitReader.bind d.bits chunk) = some first) :
    first.budget = d.available chunk + Place.mostData := by
  rw [available_eq]
  obtain ⟨⟨phase, blockSize, streamCrc⟩, bits⟩ := d
  cases phase <;> cases h <;> rfl

/-- Before a complete block at least one bit was read, also in the middle of a payload. -/
theorem Reading.length_bits_lt {blocks : List BlockText} {taken : List UInt8} {state : State}
    {last : BitReader} {readout : Readout} (h : d.Reading blocks taken)
    (hstop : d.state.advance (BitReader.bind d.bits chunk) = ⟨state, last, .complete readout⟩) :
    last.bits.length < (BitReader.bind d.bits chunk).bits.length := by
  cases hpayload : d.state.inPayload with
  | false =>
    have hlt := (State.length_bits_advance hstop).2
    rwa [hpayload, Bool.toNat_false, Nat.add_zero] at hlt
  | true =>
    have hread := State.need_le_of_complete (fun p => h.spends_next) hstop
    unfold State.inPayload at hpayload
    split at hpayload
    · rename_i p hphase
      rw [hphase] at hread
      have hneed : (Phase.payload p).need = 23 := rfl
      omega
    · cases hpayload

/-- A call that gives a block leaves fewer bits than there were. -/
theorem Reachable.available_lt {data : Array UInt8} (h : d.Reachable)
    (hblock : (d.decompress chunk).result = .ok (.block data)) :
    (d.decompress chunk).next.available (d.decompress chunk).rest < d.available chunk := by
  obtain ⟨blocks, taken, hreading⟩ := h.reading_of_block hblock
  rw [available_eq, available_eq]
  rw [decompress_eq_settle hreading.phase_ne.2] at hblock ⊢
  generalize hstop : d.state.advance (BitReader.bind d.bits chunk) = stop at hblock ⊢
  obtain ⟨state, last, halt⟩ := stop
  cases halt with
  | complete readout =>
    rw [show (BitReader.bind _ _).bits = last.bits from (settle_block hblock).2]
    exact hreading.length_bits_lt hstop
  | _ => cases hblock

/-- A drain makes at most one call more than there are bits. -/
theorem Reachable.length_drain_le (h : d.Reachable) (chunk : List UInt8) :
    (d.drain chunk).length ≤ d.available chunk + 1 := by
  fun_induction drain d chunk with
  | case1 d chunk call data hdata ih =>
    have hlt : call.next.available call.rest < d.available chunk := h.available_lt hdata
    have hrest := ih (h.decompress chunk)
    rw [List.length_cons]
    omega
  | case2 => exact Nat.succ_le_succ (Nat.zero_le _)

/-- Whatever the bytes are: each step of a call takes a bit or a byte of those that are left, so the
call comes to no more places than there are bits and bytes, and to a last one. A call that gives a
block leaves fewer bits than there were, those kept and those of the chunk together, so no more
than so many calls give one. -/
theorem calls_and_drains_end (h : d.Reachable) (chunk : List UInt8) :
    (∀ place, d.Passes chunk place → place.Advances) ∧
    (∀ first places, d.state.place? (BitReader.bind d.bits chunk) = some first →
      (first :: places).IsChain Place.Step →
        places.length ≤ d.bits.pending + 8 * chunk.length + Place.mostData) ∧
    (d.isFinished = false → ∃ last, d.Passes chunk last ∧ ∀ next, ¬ last.Step next) ∧
    (∀ data, (d.decompress chunk).result = .ok (.block data) →
      (d.decompress chunk).next.bits.pending + 8 * (d.decompress chunk).rest.length <
        d.bits.pending + 8 * chunk.length) ∧
    (d.drain chunk).length ≤ d.bits.pending + 8 * chunk.length + 1 := by
  have htold (place : Place) (hplace : d.Passes chunk place) : place.Told := by
    obtain ⟨-, blocks, taken, hreading⟩ := hplace.reading h
    exact hplace.told hreading
  refine ⟨fun place hplace => (htold place hplace).inRange.advances, ?_, ?_,
    fun data => h.available_lt, h.length_drain_le chunk⟩
  · intro first places hfirst hcourse
    have hlength := Place.length_le_budget (htold first ⟨first, hfirst, .refl⟩) hcourse
    rwa [budget_of_place? hfirst] at hlength
  · intro hopen
    obtain ⟨place, hplace⟩ := exists_passes hopen chunk
    obtain ⟨last, hpath, hlast⟩ := Place.exists_last (htold place hplace)
    obtain ⟨first, hfirst, hcourse⟩ := hplace
    exact ⟨last, ⟨first, hfirst, hcourse.trans hpath⟩, hlast⟩

/-- In the middle of a payload, where two bytes complete the block. -/
theorem calls_and_drains_end_midway :
    (∃ place, midway.Passes continuation place ∧ place.Advances) ∧
      (∃ last, midway.Passes continuation last ∧ ∀ next, ¬ last.Step next) ∧
      (midway.decompress continuation).next.bits.pending +
          8 * (midway.decompress continuation).rest.length <
        midway.bits.pending + 8 * continuation.length ∧
      (midway.drain continuation).length ≤ midway.bits.pending + 8 * continuation.length + 1 := by
  obtain ⟨hadvances, -, hends, hblocks, hdrain⟩ :=
    calls_and_drains_end reachable_midway continuation
  obtain ⟨last, hpasses, hlast⟩ := hends isFinished_midway
  exact ⟨⟨last, hpasses, hadvances last hpasses⟩, ⟨last, hpasses, hlast⟩,
    hblocks _ (decompress_of_blockWithin blockWithin_midway).1, hdrain⟩

end Decompressor

end Stream

end Bunzip
