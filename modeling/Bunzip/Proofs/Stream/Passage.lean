import Bunzip.Proofs.Stream.Course
import Bunzip.Proofs.Stream.Integrity

/-!
# The course of several calls

Where the bits for a field are missing a call is suspended, and the next one takes up the field with
its own chunk. `Place.Onward` adds this to the steps within a call, so a path of it is the course of
the calls on a list of chunks (`Decompressor.Comes.path`). A word that is spelled is read along such
a path however the bits are spread over the chunks, and nothing behind it is
(`State.Spells.path`, `State.Spells.fault_path`).
-/

namespace Bunzip.Stream

open Relation Scan

variable {place next : Place} {chunk : List UInt8} {chunks back behind : List (List UInt8)}
  {field : Field} {blockSize : Nat} {streamCrc : UInt32} {r : BitReader}

namespace Place

/-- What follows a place within a call, or in the next one if the call is suspended there. The lists
are the chunks of the calls to come. -/
inductive Onward : Place × List (List UInt8) → Place × List (List UInt8) → Prop
  | step {place next : Place} {chunks : List (List UInt8)} (h : place.Step next) :
    Onward (place, chunks) (next, chunks)
  | resume {field : Field} {blockSize : Nat} {streamCrc : UInt32} {r : BitReader}
    {chunk : List UInt8} {chunks : List (List UInt8)} (hbits : r.hasBits field.need = false) :
    Onward (.field field blockSize streamCrc r, chunk :: chunks)
      (.field field blockSize streamCrc (BitReader.bind r.suspend chunk), chunks)

/-- The word of a field is gathered from the chunks. -/
theorem exists_gathered {word rest : List Bool} (blockSize : Nat) (streamCrc : UInt32)
    (hneed : field.need = word.length)
    (hbits : r.bits ++ Bits.ofBytes chunks.flatten = word ++ rest) :
    ∃ r' back left, ReflTransGen Onward (.field field blockSize streamCrc r, chunks)
        (.field field blockSize streamCrc r', back) ∧ r'.hasBits field.need = true ∧
      r'.bits = word ++ left ∧ rest = left ++ Bits.ofBytes back.flatten := by
  induction chunks generalizing r with
  | nil =>
    rw [List.flatten_nil, Bits.ofBytes_nil, List.append_nil] at hbits
    have hhas : r.hasBits field.need = true := by
      rw [r.hasBits_iff, hbits, List.length_append]
      omega
    exact ⟨r, [], rest, .refl, hhas, hbits, (List.append_nil rest).symm⟩
  | cons chunk chunks ih =>
    cases hhas : r.hasBits field.need with
    | true =>
      -- the word ends in the bits that are there
      have hle := (r.hasBits_iff _).1 hhas
      obtain ⟨left, hleft, hrest⟩ | ⟨left, hleft, hrest⟩ := List.append_eq_append_iff.1 hbits.symm
      · exact ⟨r, chunk :: chunks, left, .refl, hhas, hleft, hrest⟩
      · have hnil : left = [] := by
          rw [hneed, hleft, List.length_append] at hle
          exact List.length_eq_zero_iff.1 (by omega)
        subst hnil
        rw [List.append_nil] at hleft
        exact ⟨r, chunk :: chunks, [], .refl, hhas, by rw [hleft, List.append_nil], hrest.symm⟩
    | false =>
      have hmore : (BitReader.bind r.suspend chunk).bits ++ Bits.ofBytes chunks.flatten =
          word ++ rest := by
        rw [← hbits, BitReader.bits_bind, BitReader.bits_suspend, List.flatten_cons,
          Bits.ofBytes_append, List.append_assoc]
      obtain ⟨r', back, left, hpath, hhas', hword, hrest⟩ := ih hmore
      exact ⟨r', back, left, .head (.resume hhas) hpath, hhas', hword, hrest⟩

/-- Where a chunk stops that is read on from a field. -/
def LeadsTo (stop : Stop) : Place → Prop
  | .field field blockSize streamCrc r =>
    State.advance ⟨.field field, blockSize, streamCrc⟩ r = stop
  | _ => True

theorem leadsTo_of_place? {s : State} (h : s.place? r = some place) :
    place.LeadsTo (s.advance r) := by
  obtain ⟨phase, size, crc⟩ := s
  cases phase with
  | field => cases h; exact rfl
  | payload => cases h; trivial
  | ended => cases h
  | closed => cases h

theorem LeadsTo.step {stop : Stop} (h : place.LeadsTo stop) (hstep : place.Step next) :
    next.LeadsTo stop := by
  cases hstep with
  | field hbits hread hnext =>
    have hrest := leadsTo_of_place? hnext
    rw [LeadsTo, State.advance_of_le ((BitReader.hasBits_iff _ _).1 hbits), hread] at h
    rwa [← h]
  | symbol => trivial
  | complete => trivial
  | byte => trivial

end Place

/-! ## Calls -/

namespace Decompressor

variable {d : Decompressor}

/-- From a field on, a call does what reading from this field does. -/
theorem Passes.decompress_eq (h : d.Passes chunk (.field field blockSize streamCrc r)) :
    d.decompress chunk =
      settle (State.advance ⟨.field field, blockSize, streamCrc⟩ r) chunk := by
  have hopen : d.state.phase ≠ .closed := by
    obtain ⟨first, hfirst, -⟩ := h
    intro hclosed
    obtain ⟨⟨phase, size, crc⟩, bits⟩ := d
    cases hclosed
    cases hfirst
  have hleads : Place.LeadsTo (d.state.advance (BitReader.bind d.bits chunk)) _ :=
    h.induct (fun first hfirst => Place.leadsTo_of_place? hfirst) fun place next hstep ih =>
      ih.step hstep
  rw [decompress_eq_settle hopen, ← hleads]

/-- The calls on the chunks, each suspended but the last, come to the place; the chunks `back` are
left for the calls to come. -/
def Comes (d : Decompressor) (chunks : List (List UInt8)) (place : Place)
    (back : List (List UInt8)) : Prop :=
  ∃ front chunk, chunks = front ++ chunk :: back ∧
    (∀ call ∈ d.calls front, call.result = .ok .suspended) ∧
    (d.after (d.calls front)).Passes chunk place

theorem Passes.comes (h : d.Passes chunk place) (chunks : List (List UInt8)) :
    d.Comes (chunk :: chunks) place chunks :=
  ⟨[], chunk, rfl, fun call hcall => (by cases hcall), h⟩

theorem Passes.suspended (h : d.Passes chunk (.field field blockSize streamCrc r))
    (hbits : r.hasBits field.need = false) :
    d.decompress chunk = ⟨.ok .suspended, [], none, ⟨⟨.field field, blockSize, streamCrc⟩,
      r.suspend⟩⟩ := by
  have hlt : r.bits.length < field.need := by
    rw [← Nat.not_le, ← r.hasBits_iff, hbits]
    exact Bool.false_ne_true
  rw [h.decompress_eq, State.advance_of_lt hlt]
  rfl

/-- A call behind which a field of a block is still to be read was suspended there. -/
theorem exists_passes_of_next
    (h : (d.decompress chunk).next.state = ⟨.field field, blockSize, streamCrc⟩)
    (hfield : field ≠ .blockHeader) :
    ∃ r, d.Passes chunk (.field field blockSize streamCrc r) ∧ r.hasBits field.need = false := by
  by_cases hopen : d.state.phase = .closed
  · rw [decompress_closed hopen] at h
    rw [h] at hopen
    cases hopen
  rw [decompress_eq_settle hopen] at h
  generalize hstop : d.state.advance (BitReader.bind d.bits chunk) = stop at h
  obtain ⟨state, last, halt⟩ := stop
  cases halt with
  | complete readout =>
    -- behind a block its successor's header is to be read
    have hphase := (State.length_bits_advance hstop).1
    simp only [settle, deliver] at h
    split at h
    · cases h
    · split at h
      · cases h
      · rw [State.mk.injEq, hphase, Phase.field.injEq] at h
        exact absurd h.1.symm hfield
  | _ =>
    obtain ⟨first, hfirst, hpath, hbits⟩ :=
      State.reaches_of_field ((congrArg Stop.state hstop).trans h) hfield
    exact ⟨_, ⟨first, hfirst, hpath⟩, hbits⟩

theorem Passes.failed {fault : Fault} (h : d.Passes chunk (.field field blockSize streamCrc r))
    (hfails : Place.Fails (.field field blockSize streamCrc r) fault) :
    (d.decompress chunk).result = .error fault := by
  cases hfails with
  | field hbits hread =>
    rw [h.decompress_eq, State.advance_of_le ((BitReader.hasBits_iff _ _).1 hbits), hread]
    rfl

theorem Comes.onward (h : d.Comes chunks place back)
    (honward : Place.Onward (place, back) (next, behind)) : d.Comes chunks next behind := by
  obtain ⟨front, chunk, hchunks, hfront, first, hfirst, hpath⟩ := h
  cases honward with
  | step hstep => exact ⟨front, chunk, hchunks, hfront, first, hfirst, hpath.tail hstep⟩
  | @resume field blockSize streamCrc r later _ hbits =>
    -- the call on `chunk` is suspended, and the one on `later` begins where it stopped
    have hsuspended := Passes.suspended ⟨first, hfirst, hpath⟩ hbits
    have hcalls := d.calls_concat front chunk
    refine ⟨front ++ [chunk], later, ?_, ?_, _, ?_, .refl⟩
    · rw [hchunks, List.append_assoc, List.singleton_append]
    · intro call hcall
      rw [hcalls, hsuspended] at hcall
      rcases List.mem_append.1 hcall with hcall | hcall
      · exact hfront call hcall
      · rw [List.mem_singleton.1 hcall]
    · rw [hcalls, after_append, hsuspended]
      rfl

/-- The calls on the chunks follow the path. -/
theorem Comes.path (h : d.Comes chunks place back)
    (hpath : ReflTransGen Place.Onward (place, back) (next, behind)) :
    d.Comes chunks next behind := by
  generalize hfirst : (place, back) = first at hpath
  generalize hlast : (next, behind) = last at hpath
  induction hpath generalizing next behind with
  | refl =>
    cases hfirst
    cases hlast
    exact h
  | @tail mid last _ honward ih =>
    obtain ⟨other, between⟩ := mid
    cases hlast
    exact (ih rfl).onward honward

end Decompressor

/-! ## Words -/

namespace State

variable {s after : State} {word rest : List Bool}

theorem Spells.exists_place {mid : State} {out : Except Fault State} (h : mid.Spells word out)
    (hout : ∀ after, out = .ok after → ∀ r, ∃ place, after.place? r = some place) (r : BitReader) :
    ∃ place, mid.place? r = some place := by
  cases h with
  | refl => exact hout mid rfl r
  | fault => exact ⟨_, rfl⟩
  | field => exact ⟨_, rfl⟩

theorem exists_read {mid : State}
    (hneed : field.need = word.length) (hread : Reads (field.read blockSize streamCrc) word mid)
    (hbits : r.bits ++ Bits.ofBytes chunks.flatten = word ++ rest)
    (hmid : ∀ r, ∃ place, mid.place? r = some place) :
    ∃ r' back next, mid.place? r' = some next ∧
      ReflTransGen Place.Onward (.field field blockSize streamCrc r, chunks) (next, back) ∧
      r'.bits ++ Bits.ofBytes back.flatten = rest := by
  obtain ⟨gathered, back, left, hpath, hhas, hleft, hrest⟩ :=
    Place.exists_gathered blockSize streamCrc hneed hbits
  obtain ⟨after, hrun, hafter⟩ := hread gathered left hleft
  obtain ⟨next, hnext⟩ := hmid after
  refine ⟨after, back, next, hnext, hpath.tail (.step (.field hhas hrun hnext)), ?_⟩
  rw [hafter, hrest]

/-- A word is read whatever the chunks are, and the bits behind it are left. -/
theorem Spells.path (h : s.Spells word (.ok after))
    (hafter : ∀ r, ∃ place, after.place? r = some place)
    (hbits : r.bits ++ Bits.ofBytes chunks.flatten = word ++ rest)
    (hplace : s.place? r = some place) :
    ∃ r' back next, after.place? r' = some next ∧
      ReflTransGen Place.Onward (place, chunks) (next, back) ∧
      r'.bits ++ Bits.ofBytes back.flatten = rest := by
  generalize hout : Except.ok after = out at h
  induction h generalizing r chunks place with
  | refl =>
    cases hout
    exact ⟨r, chunks, place, hplace, .refl, hbits⟩
  | fault => cases hout
  | field hneed hread hback ih =>
    cases hplace
    have hmid := hback.exists_place fun other hother => by
      cases hout.trans hother
      exact hafter
    rw [List.append_assoc] at hbits
    obtain ⟨r', left, mid, hmidplace, hpath, hleft⟩ := exists_read hneed hread hbits hmid
    obtain ⟨last, back, next, hnext, hrest, hlast⟩ := ih hleft hmidplace hout
    exact ⟨last, back, next, hnext, hpath.trans hrest, hlast⟩

/-- A fault in a word is found whatever the chunks are. -/
theorem Spells.fault_path {fault : Fault} (h : s.Spells word (.error fault))
    (hbits : r.bits ++ Bits.ofBytes chunks.flatten = word ++ rest)
    (hplace : s.place? r = some place) :
    ∃ field blockSize streamCrc r' back,
      ReflTransGen Place.Onward (place, chunks) (.field field blockSize streamCrc r', back) ∧
      Place.Fails (.field field blockSize streamCrc r') fault := by
  generalize hout : Except.error fault = out at h
  induction h generalizing r chunks place with
  | refl => cases hout
  | @fault field blockSize streamCrc word other hneed hread =>
    cases hout
    cases hplace
    obtain ⟨gathered, back, left, hpath, hhas, hleft, -⟩ :=
      Place.exists_gathered blockSize streamCrc hneed hbits
    obtain ⟨after, hrun⟩ := hread gathered left hleft
    exact ⟨field, blockSize, streamCrc, gathered, back, hpath, .field hhas hrun⟩
  | field hneed hread hback ih =>
    cases hplace
    have hmid := hback.exists_place fun other hother => by cases hout.trans hother
    rw [List.append_assoc] at hbits
    obtain ⟨r', left, mid, hmidplace, hpath, hleft⟩ := exists_read hneed hread hbits hmid
    obtain ⟨field, blockSize, streamCrc, last, back, hrest, hfails⟩ := ih hleft hmidplace hout
    exact ⟨field, blockSize, streamCrc, last, back, hpath.trans hrest, hfails⟩

end State

end Bunzip.Stream
