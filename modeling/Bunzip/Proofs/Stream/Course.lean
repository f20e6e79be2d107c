import Bunzip.Proofs.Stream.Progress
import Mathlib.Logic.Relation

/-!
# The course of a call

A call goes from field to field, then through a payload symbol by symbol, and through the data of a
complete block byte by byte. Each of these is a `Place`, and `Place.Step` goes on to the next one. A
call that fails has come to a place where the fault is found (`Decompressor.passes_of_error`), so
what holds where a call begins, and is kept from place to place, says which faults there are.
-/

namespace Bunzip.Stream

open Block Relation

/-- Where a call stands, before it reads the next field, symbol or byte. -/
inductive Place where
  | field (field : Field) (blockSize : Nat) (streamCrc : UInt32) (reader : BitReader)
  | symbol (payload : Payload) (reader : BitReader)
  | byte (readout : Readout)

/-- The place of a state that goes on. -/
def State.place? (s : State) (r : BitReader) : Option Place :=
  match s with
  | ⟨.field field, blockSize, streamCrc⟩ => some (.field field blockSize streamCrc r)
  | ⟨.payload payload, _, _⟩ => some (.symbol payload r)
  | _ => none

namespace Place

/-- What follows a place if there is no fault. Fields and symbols are read when the bits for them
are there. -/
inductive Step : Place → Place → Prop
  | field {field : Field} {blockSize : Nat} {streamCrc : UInt32} {r rest : BitReader}
    {after : State} {next : Place} (hbits : r.hasBits field.need = true)
    (hread : field.read blockSize streamCrc r = .ok after rest)
    (hnext : after.place? rest = some next) : Step (.field field blockSize streamCrc r) next
  | symbol {p after : Payload} {r rest : BitReader} (hbits : r.hasBits Format.maxSearch = true)
    (hstep : p.step r = .ok false (after, rest)) : Step (.symbol p r) (.symbol after rest)
  | complete {p after : Payload} {r rest : BitReader} {readout : Readout}
    (hbits : r.hasBits Format.maxSearch = true) (hstep : p.step r = .ok true (after, rest))
    (hreadout : after.readout = .ok readout) : Step (.symbol p r) (.byte readout)
  | byte {readout after : Readout} {byte : UInt8} (hread : readout.read = .ok (some byte, after)) :
    Step (.byte readout) (.byte after)

/-- The fault is found where the call stands. -/
inductive Fails : Place → Fault → Prop
  | field {field : Field} {blockSize : Nat} {streamCrc : UInt32} {r rest : BitReader}
    {fault : Fault} (hbits : r.hasBits field.need = true)
    (hread : field.read blockSize streamCrc r = .error fault rest) :
    Fails (.field field blockSize streamCrc r) fault
  | symbol {p : Payload} {r : BitReader} {fault : Fault} {after : Payload × BitReader}
    (hbits : r.hasBits Format.maxSearch = true) (hstep : p.step r = .error fault after) :
    Fails (.symbol p r) fault
  | readout {p after : Payload} {r rest : BitReader} {fault : Fault}
    (hbits : r.hasBits Format.maxSearch = true) (hstep : p.step r = .ok true (after, rest))
    (hreadout : after.readout = .error fault) : Fails (.symbol p r) fault
  | byte {readout : Readout} {fault : Fault} (hread : readout.read = .error fault) :
    Fails (.byte readout) fault
  | checksum {readout last : Readout} {fault : Fault} (hread : readout.read = .ok (none, last))
    (hcheck : last.checkCrc = .error fault) : Fails (.byte readout) fault

/-- The next symbol completes the payload, and its data can be read out. -/
inductive Completes : Place → Payload → Prop
  | symbol {p after : Payload} {r rest : BitReader} {readout : Readout}
    (hbits : r.hasBits Format.maxSearch = true) (hstep : p.step r = .ok true (after, rest))
    (hreadout : after.readout = .ok readout) : Completes (.symbol p r) after

theorem Completes.step {place : Place} {after : Payload} {readout : Readout}
    (h : place.Completes after) (hreadout : after.readout = .ok readout) :
    place.Step (.byte readout) := by
  cases h with
  | symbol hbits hstep => exact .complete hbits hstep hreadout

end Place

/-! ## Payloads and their data -/

variable {p after : Payload} {r rest : BitReader} {fault : Fault} {readout last : Readout}

theorem reaches_of_run_failed {stop : Payload × BitReader} (h : p.run r = .error fault stop) :
    ∃ place, ReflTransGen Place.Step (.symbol p r) place ∧ place.Fails fault := by
  fun_induction Payload.run p r with
  | case1 p r hbits other stop' hstep =>
    cases h
    exact ⟨_, .refl, .symbol hbits hstep⟩
  | case2 p r hbits mid next hstep other hreadout =>
    cases h
    exact ⟨_, .refl, .readout hbits hstep hreadout⟩
  | case3 => cases h
  | case4 p r hbits mid next hstep ih =>
    obtain ⟨place, hpath, hfails⟩ := ih h
    exact ⟨place, .head (.symbol hbits hstep) hpath, hfails⟩
  | case5 => cases h

theorem reaches_of_run_complete (h : p.run r = .ok (some readout) (after, rest)) :
    ∃ place, ReflTransGen Place.Step (.symbol p r) place ∧ place.Completes after ∧
      after.readout = .ok readout := by
  fun_induction Payload.run p r with
  | case1 => cases h
  | case2 => cases h
  | case3 p r hbits mid next hstep other hreadout =>
    cases h
    exact ⟨_, .refl, .symbol hbits hstep hreadout, hreadout⟩
  | case4 p r hbits mid next hstep ih =>
    obtain ⟨place, hpath, hcompletes⟩ := ih h
    exact ⟨place, .head (.symbol hbits hstep) hpath, hcompletes⟩
  | case5 => cases h

theorem reaches_of_drain_failed {given : Array UInt8} (h : readout.drain given = .error fault) :
    ∃ place, ReflTransGen Place.Step (.byte readout) place ∧ place.Fails fault := by
  fun_induction Readout.drain readout given with
  | case1 readout given other hread =>
    cases h
    exact ⟨_, .refl, .byte hread⟩
  | case2 => cases h
  | case3 readout given byte next hread ih =>
    obtain ⟨place, hpath, hfails⟩ := ih h
    exact ⟨place, .head (.byte hread) hpath, hfails⟩

theorem reaches_of_drain {given data : Array UInt8} (h : readout.drain given = .ok (data, last)) :
    ∃ final : Readout, ReflTransGen Place.Step (.byte readout) (.byte final) ∧
      final.read = .ok (none, last) := by
  fun_induction Readout.drain readout given with
  | case1 => cases h
  | case2 readout given next hread =>
    cases h
    exact ⟨readout, .refl, hread⟩
  | case3 readout given byte next hread ih =>
    obtain ⟨final, hpath, hend⟩ := ih h
    exact ⟨final, .head (.byte hread) hpath, hend⟩

/-! ## Chunks -/

namespace State

variable {s state : State}

/-- The reading of a chunk that fails has come to the fault. -/
theorem reaches_of_failed (h : (s.advance r).halt = .failed fault) :
    ∃ first place, s.place? r = some first ∧ ReflTransGen Place.Step first place ∧
      place.Fails fault := by
  fun_induction State.advance s r with
  | case1 r blockSize streamCrc field hbits other rest hread =>
    cases h
    exact ⟨_, _, rfl, .refl, .field hbits hread⟩
  | case2 r blockSize streamCrc field hbits after rest hread ih =>
    obtain ⟨first, place, hfirst, hpath, hfails⟩ := ih h
    exact ⟨_, place, rfl, .head (.field hbits hread hfirst) hpath, hfails⟩
  | case3 => cases h
  | case4 r payload blockSize streamCrc =>
    unfold readPayload at h
    split at h
    · rename_i hrun
      cases h
      obtain ⟨place, hpath, hfails⟩ := reaches_of_run_failed hrun
      exact ⟨_, place, rfl, hpath, hfails⟩
    · cases h
    · cases h
  | case5 => cases h
  | case6 => cases h

theorem reaches_of_complete {last : BitReader}
    (h : s.advance r = ⟨state, last, .complete readout⟩) :
    ∃ first place after, s.place? r = some first ∧ ReflTransGen Place.Step first place ∧
      place.Completes after ∧ after.readout = .ok readout := by
  fun_induction State.advance s r with
  | case1 => cases h
  | case2 r blockSize streamCrc field hbits after rest hread ih =>
    obtain ⟨first, place, complete, hfirst, hpath, hcompletes⟩ := ih h
    exact ⟨_, place, complete, rfl, .head (.field hbits hread hfirst) hpath, hcompletes⟩
  | case3 => cases h
  | case4 r payload blockSize streamCrc =>
    unfold readPayload at h
    split at h
    · cases h
    · cases h
    · rename_i hrun
      cases h
      obtain ⟨place, hpath, hcompletes⟩ := reaches_of_run_complete hrun
      exact ⟨_, place, _, rfl, hpath, hcompletes⟩
  | case5 => cases h
  | case6 => cases h

theorem reaches_of_field {field : Field} {blockSize : Nat} {streamCrc : UInt32}
    (h : (s.advance r).state = ⟨.field field, blockSize, streamCrc⟩)
    (hfield : field ≠ .blockHeader) :
    ∃ first, s.place? r = some first ∧
      ReflTransGen Place.Step first (.field field blockSize streamCrc (s.advance r).reader) ∧
      (s.advance r).reader.hasBits field.need = false := by
  fun_induction State.advance s r with
  | case1 => cases h
  | case2 r size crc front hbits after rest hread ih =>
    obtain ⟨first, hfirst, hpath, hwant⟩ := ih h
    exact ⟨_, rfl, .head (.field hbits hread hfirst) hpath, hwant⟩
  | case3 r front size crc hbits =>
    cases h
    rw [Bool.not_eq_true] at hbits
    exact ⟨_, rfl, .refl, hbits⟩
  | case4 r payload size crc =>
    unfold readPayload at h
    split at h
    · cases h
    · cases h
    · cases h
      exact absurd rfl hfield
  | case5 => cases h
  | case6 => cases h

end State

/-! ## Calls -/

namespace Decompressor

variable {d : Decompressor} {chunk : List UInt8}

/-- The call on the chunk comes to this place. -/
def Passes (d : Decompressor) (chunk : List UInt8) (place : Place) : Prop :=
  ∃ first, d.state.place? (BitReader.bind d.bits chunk) = some first ∧
    ReflTransGen Place.Step first place

theorem exists_passes (h : d.isFinished = false) (chunk : List UInt8) :
    ∃ place, d.Passes chunk place := by
  obtain ⟨⟨phase, blockSize, streamCrc⟩, bits⟩ := d
  cases phase with
  | field => exact ⟨_, _, rfl, .refl⟩
  | payload => exact ⟨_, _, rfl, .refl⟩
  | ended => cases h
  | closed => cases h

/-- What holds where the call begins, and is kept from place to place, holds of every place that it
passes. -/
theorem Passes.induct {P : Place → Prop} {place : Place} (h : d.Passes chunk place)
    (hfirst : ∀ first, d.state.place? (BitReader.bind d.bits chunk) = some first → P first)
    (hstep : ∀ place next, place.Step next → P place → P next) : P place := by
  obtain ⟨first, hplace, hpath⟩ := h
  induction hpath with
  | refl => exact hfirst first hplace
  | tail _ hnext ih => exact hstep _ _ hnext ih

/-- A call that fails passes the place of the fault. -/
theorem passes_of_error (hopen : d.state.phase ≠ .closed)
    (h : (d.decompress chunk).result = .error fault) :
    ∃ place, d.Passes chunk place ∧ place.Fails fault := by
  rw [decompress_eq_settle hopen] at h
  generalize hstop : d.state.advance (BitReader.bind d.bits chunk) = stop at h
  obtain ⟨state, last, halt⟩ := stop
  cases halt with
  | starved => cases h
  | ended => cases h
  | failed =>
    cases h
    obtain ⟨first, place, hfirst, hpath, hfails⟩ :=
      State.reaches_of_failed (congrArg Stop.halt hstop)
    exact ⟨place, ⟨first, hfirst, hpath⟩, hfails⟩
  | complete readout =>
    obtain ⟨first, final, after, hfirst, hsymbols, hcompletes, hreadout⟩ :=
      State.reaches_of_complete hstop
    have hpath := hsymbols.tail (hcompletes.step hreadout)
    simp only [settle, deliver] at h
    split at h
    · rename_i hdrain
      cases h
      obtain ⟨place, hmore, hfails⟩ := reaches_of_drain_failed hdrain
      exact ⟨place, ⟨first, hfirst, hpath.trans hmore⟩, hfails⟩
    rename_i hdrain
    split at h
    · rename_i hcheck
      cases h
      obtain ⟨final, hmore, hend⟩ := reaches_of_drain hdrain
      exact ⟨_, ⟨first, hfirst, hpath.trans hmore⟩, .checksum hend hcheck⟩
    · cases h

end Decompressor

end Bunzip.Stream
