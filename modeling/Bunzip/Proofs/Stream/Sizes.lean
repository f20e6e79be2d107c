import Bunzip.Proofs.Block.Data
import Bunzip.Proofs.Stream.Finiteness

/-!
# Sizes of blocks

Room for a block is asked for when its payload is complete and can be read out, and for as many
bytes as the payload has (`Decompressor.reserved_iff`). A count stands behind four bytes that are
data themselves, so of each five bytes one is lost or turned into at most 255
(`RunLength.length_expand_bounds`). With the limit of the stream on the bytes of a payload this
bounds what a call can give, whatever the bytes of the stream are
(`Decompressor.expansion_bounded`).
-/

namespace Bunzip

namespace Block

/-! ## Lengths of data -/

/-- A count is one of five bytes, and stands for at most 255. -/
theorem RunLength.length_expand_bounds (bytes : List UInt8) :
    bytes.length - bytes.length / 5 ≤ (expand bytes).length ∧
      (expand bytes).length ≤ bytes.length + 254 * (bytes.length / 5) := by
  induction bytes using expand.induct with
  | case1 a b c d count rest hequal ih =>
    have hcount := count.toNat_lt
    rw [expand, if_pos hequal, List.length_append, List.length_replicate]
    simp only [List.length_cons]
    omega
  | case2 a b c d count rest hne ih =>
    rw [expand, if_neg hne]
    simp only [List.length_cons] at *
    omega
  | case3 bytes hfew =>
    rw [expand]
    · omega
    · exact hfew

/-- Both bounds are met. -/
example : (RunLength.expand [7, 7, 7, 7, 0]).length = 5 - 1 ∧
    (RunLength.expand [7, 7, 7, 7, 255]).length = 5 + 254 := by decide +kernel

theorem Payload.left_readout {p : Payload} {readout : Readout} (h : p.readout = .ok readout) :
    readout.walk.left = p.expansion.bytes.size := by
  have hleft := Payload.atMost_readout h
  unfold Payload.readout at h
  split at h
  · cases h
  · cases h
    exact Nat.eq_of_mul_eq_mul_left (show 0 < mostCopies by decide) hleft

end Block

namespace Stream

open Block Relation

/-- The bytes of the block, as its walk gives them. -/
def BlockText.walked (b : BlockText) : List UInt8 :=
  masked b.randomised (Rotations.unsort b.column b.pointer)

theorem BlockText.length_walked (b : BlockText) : b.walked.length = b.column.length := by
  rw [walked, length_masked, Rotations.length_unsort]

theorem BlockText.data_eq_expand (b : BlockText) : b.data = RunLength.expand b.walked := by
  rw [← RunLength.decode_eq_expand]
  rfl

/-! ## The symbol that completes a payload -/

/-- Why the reading of a chunk stops, by what its payload comes to. -/
def Halt.ofOutcome : Payload.Outcome (Option Readout) → Halt
  | .error fault _ => .failed fault
  | .ok none _ => .starved
  | .ok (some readout) _ => .complete readout

theorem State.halt_readPayload (blockSize : Nat) (streamCrc : UInt32) (p : Payload)
    (r : BitReader) : (readPayload blockSize streamCrc p r).halt = Halt.ofOutcome (p.run r) := by
  unfold readPayload
  rcases p.run r with ⟨_ | readout, stop⟩ | ⟨fault, stop⟩ <;> rfl

namespace Place

variable {place next other : Place} {after after' : Payload} {halt : Halt}

/-- From here on the reading of the chunk stops in this way. -/
def Stops (halt : Halt) : Place → Prop
  | .field next blockSize streamCrc r =>
    (State.advance ⟨.field next, blockSize, streamCrc⟩ r).halt = halt
  | .symbol p r => Halt.ofOutcome (p.run r) = halt
  | .byte _ => True

theorem stops_of_place? {s : State} {r : BitReader} (h : s.place? r = some place) :
    place.Stops (s.advance r).halt := by
  obtain ⟨phase, blockSize, streamCrc⟩ := s
  cases phase with
  | field => cases h; exact rfl
  | payload =>
    cases h
    rw [State.advance_payload, State.halt_readPayload]
    exact rfl
  | ended => cases h
  | closed => cases h

/-- The rest of a chunk stops as the whole of it does. -/
theorem Stops.step (h : place.Stops halt) (hstep : place.Step next) : next.Stops halt := by
  cases hstep with
  | field hbits hread hnext =>
    have hfirst := stops_of_place? hnext
    simp only [Stops, State.advance_of_le ((BitReader.hasBits_iff _ _).1 hbits), hread] at h
    rwa [h] at hfirst
  | symbol hbits hstep =>
    rwa [Stops, Payload.run_of_step ((BitReader.hasBits_iff _ _).1 hbits) hstep] at h
  | complete => trivial
  | byte => trivial

theorem Completes.stops (h : place.Completes after) (hstops : place.Stops halt) :
    ∃ readout, after.readout = .ok readout ∧ halt = .complete readout := by
  cases h with
  | symbol hbits hstep hreadout =>
    rw [Stops, Payload.run_of_end ((BitReader.hasBits_iff _ _).1 hbits) hstep hreadout] at hstops
    exact ⟨_, hreadout, hstops.symm⟩

/-- A place has at most one that follows. -/
theorem step_unique : Relator.RightUnique Step := by
  intro place next other hnext hother
  cases hnext with
  | field _ hread hplace =>
    cases hother with
    | field _ hread' hplace' =>
      rw [hread] at hread'
      cases hread'
      rw [hplace] at hplace'
      exact Option.some.inj hplace'
  | symbol _ hstep =>
    cases hother with
    | symbol _ hstep' =>
      rw [hstep] at hstep'
      cases hstep'
      rfl
    | complete _ hstep' =>
      rw [hstep] at hstep'
      cases hstep'
  | complete _ hstep hreadout =>
    cases hother with
    | symbol _ hstep' =>
      rw [hstep] at hstep'
      cases hstep'
    | complete _ hstep' hreadout' =>
      rw [hstep] at hstep'
      cases hstep'
      rw [hreadout] at hreadout'
      cases hreadout'
      rfl
  | byte hread =>
    cases hother with
    | byte hread' =>
      rw [hread] at hread'
      cases hread'
      rfl

theorem bytes_of_reaches (hpath : ReflTransGen Step place other)
    (h : ∃ readout, place = .byte readout) : ∃ readout, other = .byte readout := by
  induction hpath with
  | refl => exact h
  | tail _ hlast ih =>
    obtain ⟨readout, rfl⟩ := ih
    cases hlast with
    | byte => exact ⟨_, rfl⟩

/-- Behind the symbol that completes a payload there are only the bytes of the block. -/
theorem Completes.eq_of_reaches (h : place.Completes after) (hother : other.Completes after')
    (hpath : ReflTransGen Step place other) : other = place := by
  rcases hpath.cases_head with heq | ⟨next, hstep, hmore⟩
  · exact heq.symm
  have hbyte : ∃ readout, next = .byte readout := by
    cases h with
    | symbol hbits hend hreadout =>
      exact ⟨_, step_unique hstep (.complete hbits hend hreadout)⟩
  obtain ⟨readout, rfl⟩ := bytes_of_reaches hmore hbyte
  cases hother

end Place

namespace Decompressor

variable {d : Decompressor} {chunk : List UInt8} {place other : Place} {after after' : Payload}

/-- A call completes one payload at most. -/
theorem Passes.completes_unique (h : d.Passes chunk place) (hother : d.Passes chunk other)
    (hcompletes : place.Completes after) (hcompletes' : other.Completes after') :
    other = place := by
  obtain ⟨first, hfirst, hpath⟩ := h
  obtain ⟨first', hfirst', hpath'⟩ := hother
  rw [hfirst] at hfirst'
  cases hfirst'
  rcases ReflTransGen.total_of_right_unique Place.step_unique hpath hpath' with hmore | hmore
  · exact hcompletes.eq_of_reaches hcompletes' hmore
  · exact (hcompletes'.eq_of_reaches hcompletes hmore).symm

theorem Passes.stops (h : d.Passes chunk place) :
    place.Stops (d.state.advance (BitReader.bind d.bits chunk)).halt :=
  h.induct (fun _ hfirst => Place.stops_of_place? hfirst) fun _ _ hstep hstops => hstops.step hstep

/-- Room is asked for where the reading of a chunk completes a payload. -/
theorem reserved_settle {stop : Stop} {n : Nat} :
    (settle stop chunk).reserved = some n ↔
      ∃ readout, stop.halt = .complete readout ∧ readout.walk.left = n := by
  obtain ⟨state, r, halt⟩ := stop
  cases halt with
  | complete readout =>
    have hreserved : (deliver state r readout chunk).reserved = some readout.walk.left := by
      simp only [deliver]
      split
      · rfl
      split <;> rfl
    simp [settle, hreserved]
  | _ => simp [settle]

theorem phase_ne_of_passes (h : d.Passes chunk place) : d.state.phase ≠ .closed := by
  obtain ⟨first, hfirst, -⟩ := h
  obtain ⟨⟨phase, blockSize, streamCrc⟩, bits⟩ := d
  rintro rfl
  cases hfirst

/-- Room is asked for exactly if the call completes a payload, and for as many bytes as it has. -/
theorem reserved_iff {n : Nat} :
    (d.decompress chunk).reserved = some n ↔
      ∃ place after, d.Passes chunk place ∧ place.Completes after ∧
        after.expansion.bytes.size = n := by
  constructor
  · intro h
    by_cases hclosed : d.state.phase = .closed
    · rw [decompress_closed hclosed] at h
      cases h
    rw [decompress_eq_settle hclosed] at h
    obtain ⟨readout, hhalt, hleft⟩ := reserved_settle.1 h
    generalize hstop : d.state.advance (BitReader.bind d.bits chunk) = stop at hhalt
    obtain ⟨state, last, halt⟩ := stop
    obtain rfl : halt = .complete readout := hhalt
    obtain ⟨first, place, after, hfirst, hpath, hcompletes, hreadout⟩ :=
      State.reaches_of_complete hstop
    exact ⟨place, after, ⟨first, hfirst, hpath⟩, hcompletes,
      (Payload.left_readout hreadout).symm.trans hleft⟩
  · rintro ⟨place, after, hpasses, hcompletes, rfl⟩
    obtain ⟨readout, hreadout, hhalt⟩ := hcompletes.stops hpasses.stops
    rw [decompress_eq_settle (phase_ne_of_passes hpasses)]
    exact reserved_settle.2 ⟨readout, hhalt, Payload.left_readout hreadout⟩

end Decompressor

/-! ## Bounds -/

/-- What a call for a block of `n` bytes gives: data whose length is close to `n`, or a wrong
checksum. -/
structure Call.Sized (n : Nat) (call : Call) : Prop where
  pos : 1 ≤ n
  le_blockSize : n ≤ call.next.state.blockSize
  blockSize_le : call.next.state.blockSize ≤ 9 * Format.blockUnit
  outcome : (∃ data, call.result = .ok (.block data) ∧ n - n / 5 ≤ data.size ∧
      data.size ≤ n + 254 * (n / 5)) ∨
    ∃ stored computed, call.result = .error (.stream (.blockCrcMismatch stored computed))

namespace Decompressor

variable {d : Decompressor} {chunk : List UInt8}

/-- The data of a complete payload are as long as its bytes allow. -/
theorem sized_deliver {t : StreamText} {b : BlockText} {r : BitReader} {readout : Readout}
    (ht : t.Readable) (hb : b.Completed t.blockSize readout) :
    (deliver ⟨.field .blockHeader, t.blockSize, t.checksum⟩ r readout chunk).Sized
      readout.walk.left := by
  obtain ⟨walk, rfl, hgives⟩ := hb.readout_eq
  have hleft : walk.left = b.column.length := by
    rw [hgives.left_eq, Rotations.length_unsort]
  obtain ⟨data, after, hdrain, hdata, -⟩ := Readout.drain_start hgives b.randomised b.stored
  have hsize : data.size = (RunLength.expand b.walked).length := by
    rw [← Array.length_toList, hdata, ← BlockText.data_eq_expand]
    rfl
  obtain ⟨hge, hle⟩ := RunLength.length_expand_bounds b.walked
  rw [← hsize, b.length_walked, ← hleft] at hge hle
  have hpos : 1 ≤ walk.left := hleft ▸ Nat.zero_lt_of_lt hb.pointer_lt_column
  have hfits : walk.left ≤ t.blockSize := hleft ▸ hb.column_le
  have hlimit : t.blockSize ≤ 9 * Format.blockUnit := Nat.mul_le_mul_right _ ht.digit_le
  simp only [deliver, hdrain]
  split
  · rename_i fault hcheck
    refine ⟨hpos, hfits, hlimit, .inr ?_⟩
    unfold Readout.checkCrc at hcheck
    split at hcheck
    · cases hcheck
    · cases hcheck
      exact ⟨_, _, rfl⟩
  · exact ⟨hpos, hfits, hlimit, .inl ⟨data, rfl, hge, hle⟩⟩

/-- Where room is asked for, the block is as large as its bytes allow. -/
theorem Reachable.sized {n : Nat} (h : d.Reachable)
    (hreserved : (d.decompress chunk).reserved = some n) : (d.decompress chunk).Sized n := by
  rcases h.live with hclosed | ⟨-, hended | ⟨blocks, taken, hreading⟩⟩
  · rw [decompress_closed hclosed] at hreserved
    cases hreserved
  · rw [decompress_of_ended hended] at hreserved
    cases hreserved
  have hopen := hreading.phase_ne.2
  obtain ⟨word, htold, -⟩ := hreading
  have hstop := htold.advance (BitReader.bind d.bits chunk)
  rw [decompress_eq_settle hopen] at hreserved ⊢
  obtain ⟨readout, hhalt, rfl⟩ := reserved_settle.1 hreserved
  generalize d.state.advance (BitReader.bind d.bits chunk) = stop at hhalt hstop ⊢
  obtain ⟨state, last, halt⟩ := stop
  obtain rfl : halt = .complete readout := hhalt
  obtain ⟨t, b, ht, -, hb, -, rfl⟩ := hstop
  exact sized_deliver ht hb

theorem exists_reserved {data : Array UInt8}
    (h : (d.decompress chunk).result = .ok (.block data)) :
    ∃ n, (d.decompress chunk).reserved = some n := by
  by_cases hclosed : d.state.phase = .closed
  · rw [decompress_closed hclosed] at h
    cases h
  rw [decompress_eq_settle hclosed] at h ⊢
  generalize d.state.advance (BitReader.bind d.bits chunk) = stop at h ⊢
  obtain ⟨state, last, halt⟩ := stop
  cases halt with
  | complete readout => exact ⟨_, reserved_settle.2 ⟨readout, rfl, rfl⟩⟩
  | _ => cases h

/-- A block that is given is as long as its bytes allow. -/
theorem Reachable.size_of_block {data : Array UInt8} (h : d.Reachable)
    (hblock : (d.decompress chunk).result = .ok (.block data)) :
    ∃ n, (d.decompress chunk).reserved = some n ∧ 1 ≤ n ∧ n ≤ 9 * Format.blockUnit ∧
      n - n / 5 ≤ data.size ∧ data.size ≤ n + 254 * (n / 5) := by
  obtain ⟨n, hreserved⟩ := exists_reserved hblock
  obtain ⟨hpos, hfits, hlimit, ⟨other, hother, hge, hle⟩ | ⟨stored, computed, hwrong⟩⟩ :=
    h.sized hreserved
  · rw [hblock] at hother
    cases hother
    exact ⟨n, hreserved, hpos, Nat.le_trans hfits hlimit, hge, hle⟩
  · rw [hblock] at hwrong
    cases hwrong

/-- Whatever was done before, and whatever the chunk is: room is asked for exactly if the call
completes a payload that can be read out, which happens once at most, and for as many bytes as the
payload has. There is at least one byte, and no more than the stream allows. Then the call gives the
block, or the block has a wrong checksum. A block that is given has at least four bytes for each
five, and 259 at most; so it is never empty, and no call gives more than 46620000 bytes. -/
theorem expansion_bounded (h : d.Reachable) (chunk : List UInt8) :
    (∀ n, (d.decompress chunk).reserved = some n ↔
      ∃ place after, d.Passes chunk place ∧ place.Completes after ∧
        after.expansion.bytes.size = n) ∧
    (∀ place other after after', d.Passes chunk place → d.Passes chunk other →
      place.Completes after → other.Completes after' → other = place) ∧
    (∀ n, (d.decompress chunk).reserved = some n →
      1 ≤ n ∧ n ≤ (d.decompress chunk).next.state.blockSize ∧
      (d.decompress chunk).next.state.blockSize ≤ 900000 ∧
      ((∃ data, (d.decompress chunk).result = .ok (.block data)) ∨ ∃ stored computed,
        (d.decompress chunk).result = .error (.stream (.blockCrcMismatch stored computed)))) ∧
    ∀ data, (d.decompress chunk).result = .ok (.block data) →
      ∃ n, (d.decompress chunk).reserved = some n ∧ n - n / 5 ≤ data.size ∧
        data.size ≤ n + 254 * (n / 5) ∧ 0 < data.size ∧ data.size ≤ 46620000 := by
  refine ⟨fun n => reserved_iff, fun place other after after' hpasses hother hcompletes hcompletes' =>
    hpasses.completes_unique hother hcompletes hcompletes', fun n hreserved => ?_,
    fun data hblock => ?_⟩
  · obtain ⟨hpos, hfits, hlimit, houtcome⟩ := h.sized hreserved
    refine ⟨hpos, hfits, hlimit, ?_⟩
    rcases houtcome with ⟨data, hblock, -⟩ | hwrong
    · exact .inl ⟨data, hblock⟩
    · exact .inr hwrong
  · obtain ⟨n, hreserved, hpos, hlimit, hge, hle⟩ := h.size_of_block hblock
    have hunit : 9 * Format.blockUnit = 900000 := rfl
    exact ⟨n, hreserved, hge, hle, by omega, by omega⟩

/-- In the middle of a payload, where two bytes complete a block of three. -/
theorem expansion_bounded_midway :
    (midway.decompress continuation).reserved = some 3 ∧
      (∃ place after, midway.Passes continuation place ∧ place.Completes after ∧
        after.expansion.bytes.size = 3) ∧
      3 ≤ (midway.decompress continuation).next.state.blockSize := by
  obtain ⟨hplaces, -, hrooms, hblocks⟩ := expansion_bounded reachable_midway continuation
  obtain ⟨n, hreserved, hge, hle, -⟩ := hblocks _ (decompress_of_blockWithin blockWithin_midway).1
  have hsize : (#[0x61, 0x61, 0x68] : Array UInt8).size = 3 := rfl
  obtain rfl : n = 3 := by omega
  exact ⟨hreserved, (hplaces 3).1 hreserved, (hrooms 3 hreserved).2.1⟩

end Decompressor

end Stream

end Bunzip
