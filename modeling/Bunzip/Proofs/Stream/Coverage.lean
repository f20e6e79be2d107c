import Bunzip.Proofs.Stream.Course

/-!
# Covered reads

A read finds fewer bits than it takes exactly if it fails (`Scan.number_eq_error_iff`). Before a
field is read the bits of its `need` are there, and before a symbol those of a longest search;
wherever a call comes to, these cover all the reads that follow, so none of them fails
(`Decompressor.reads_covered`). What makes them enough are the limits that the block was checked
for.
-/

namespace Bunzip

namespace Scan

variable {α : Type}

/-- A read fails exactly if fewer bits are left than it takes, and then takes none. -/
theorem number_eq_error_iff {n : Nat} {r next : BitReader} {fault : Fault} :
    number n r = .error fault next ↔
      r.bits.length < n ∧ fault = .defect .shortRead ∧ next = r := by
  by_cases hle : n ≤ r.bits.length
  · obtain ⟨after, htake, -⟩ := r.take?_eq_some n hle
    rw [number, htake]
    constructor
    · intro h
      cases h
    · intro h
      exact absurd hle (Nat.not_le_of_lt h.1)
  · rw [number, r.take?_eq_none n (by omega)]
    constructor
    · intro h
      cases h
      exact ⟨by omega, rfl, rfl⟩
    · rintro ⟨-, rfl, rfl⟩
      rfl

/-- Where `n` bits are left, none of the reads of the scan finds too few. -/
def Covered (n : Nat) (scan : Scan α) : Prop :=
  ∀ r, n ≤ r.bits.length → ∀ next, scan r ≠ .error (.defect .shortRead) next

theorem Decided.covered {n : Nat} {scan : Scan α} (h : Decided n scan) : Covered n scan := by
  intro r hn next hrun
  rcases h.mono hn r.bits rfl with ⟨word, back, value, hword, hreads⟩ | ⟨fault, hne, hfails⟩
  · obtain ⟨other, hother, -⟩ := hreads r back hword
    rw [hrun] at hother
    cases hother
  · obtain ⟨other, hother⟩ := hfails r [] (List.append_nil _).symm
    rw [hrun] at hother
    cases hother
    exact hne rfl

end Scan

namespace Stream

open Scan Huffman Block

namespace Place

/-- The limits that the block was checked for. -/
def Sound : Place → Prop
  | .field next _ _ _ => (Phase.field next).Sound
  | .symbol p _ => p.decoder.Searchable
  | .byte _ => True

theorem sound_of_place? {s : State} {r : BitReader} {place : Place} (h : s.Sound)
    (hplace : s.place? r = some place) : place.Sound := by
  obtain ⟨phase, blockSize, streamCrc⟩ := s
  cases phase <;> cases hplace <;> exact h

theorem Sound.step {place next : Place} (h : place.Sound) (hstep : place.Step next) :
    next.Sound := by
  cases hstep with
  | field hbits hread hnext => exact sound_of_place? (Field.gives_read _ _ h _ _ _ hread) hnext
  | symbol hbits hstep => exact Payload.searchable_step h hstep
  | complete => trivial
  | byte => trivial

/-- The bits that were asked for cover all reads up to the next place. -/
def Covered : Place → Prop
  | .field next blockSize streamCrc _ =>
    Scan.Covered next.need (next.read blockSize streamCrc)
  | .symbol p _ => Scan.Covered Format.maxSearch p.decoder.next
  | .byte _ => True

theorem Sound.covered {place : Place} (h : place.Sound) : place.Covered := by
  cases place with
  | field field blockSize streamCrc r => exact (Field.decided_read blockSize streamCrc h).covered
  | symbol p r => exact (Decoder.decided_next h).covered
  | byte readout => trivial

end Place

namespace Decompressor

variable {d : Decompressor} {chunk : List UInt8}

theorem Passes.sound {place : Place} (h : d.Passes chunk place) (hsound : d.state.Sound) :
    place.Sound :=
  h.induct (fun _ hfirst => Place.sound_of_place? hsound hfirst) fun _ _ hstep hplace =>
    hplace.step hstep

end Decompressor

end Stream

end Bunzip
