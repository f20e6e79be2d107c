import Bunzip.Proofs.Block.Data
import Bunzip.Proofs.Randomiser
import Bunzip.Stream.Encoding

/-!
# Masks of a block

A randomised block draws one mask for every byte of its walk, whether the byte is data or a count:
however far it was read, as many masks were drawn as the walk has given bytes (`Readout.Drawn`). So
a block that was written under the same masks is read back (`Payload.draws_masks`).
-/

namespace Bunzip.Block

namespace Readout

variable {r after : Readout} {size : Nat} {given : Array UInt8}

/-- Of `size` bytes the walk gave some, and as many masks were drawn. -/
structure Drawn (size : Nat) (r : Readout) : Prop where
  left_le : r.walk.left ≤ size
  masks_eq : r.masks = some (Randomiser.start.masks (size - r.walk.left)).2

theorem drawn_start {walk : Walk} (h : walk.left = size) (stored : UInt32) :
    (start walk true stored).Drawn size := by
  refine ⟨Nat.le_of_eq h, ?_⟩
  show some Randomiser.start = some (Randomiser.start.masks (size - walk.left)).2
  rw [h, Nat.sub_self]
  rfl

theorem Drawn.nextByte (h : r.Drawn size) (hleft : r.walk.left ≠ 0) {byte : UInt8}
    (hnext : r.nextByte = .ok (byte, after)) :
    after.Drawn size ∧ after.walk.left + 1 = r.walk.left ∧
      byte = linkByte r.walk.current ^^^ Randomiser.maskAt (size - r.walk.left) := by
  obtain ⟨walk, masks, last, equal, copies, crc, stored⟩ := r
  obtain ⟨hle, hmasks⟩ := h
  simp only at hle hleft hmasks
  have hdrawn : size - (walk.left - 1) = size - walk.left + 1 := by omega
  subst hmasks
  simp only [Readout.nextByte, Walk.next] at hnext
  split at hnext
  · cases hnext
  · rename_i hwalk
    split at hwalk
    · cases hwalk
    cases hwalk
    cases hnext
    refine ⟨⟨Nat.le_trans (Nat.sub_le _ 1) hle, ?_⟩, Nat.sub_add_cancel (by omega), rfl⟩
    simp only
    rw [hdrawn, Randomiser.masks_succ]

theorem Drawn.supply (h : r.Drawn size) (byte : UInt8) (equal copies : Nat) :
    (r.supply byte equal copies).Drawn size := ⟨h.left_le, h.masks_eq⟩

theorem Drawn.fill (h : r.Drawn size) (hleft : r.walk.left ≠ 0) (hfill : r.fill = .ok after) :
    after.Drawn size := by
  unfold Readout.fill at hfill
  split at hfill
  · cases hfill
  rename_i byte mid hmid
  obtain ⟨hdrawn, -⟩ := h.nextByte hleft hmid
  split at hfill
  · cases hfill
    exact hdrawn.supply _ _ _
  split at hfill
  · cases hfill
    exact hdrawn.supply _ _ _
  split at hfill
  · cases hfill
    exact hdrawn.supply _ _ _
  -- a count takes a mask like any other byte
  split at hfill
  · cases hfill
  · rename_i hmore _ count last hlast
    cases hfill
    exact (hdrawn.nextByte hmore hlast).1.supply _ _ _

theorem Drawn.read (h : r.Drawn size) {byte : Option UInt8} (hread : r.read = .ok (byte, after)) :
    after.Drawn size := by
  unfold Readout.read at hread
  split at hread
  · cases hread
    exact ⟨h.left_le, h.masks_eq⟩
  split at hread
  · cases hread
    exact h
  split at hread
  · cases hread
  · rename_i hleft _ mid hmid
    have hdrawn := h.fill hleft hmid
    cases hread
    exact ⟨hdrawn.left_le, hdrawn.masks_eq⟩

theorem Drawn.take (h : r.Drawn size) {limit : Nat} {data : Array UInt8}
    (htake : r.take limit given = .ok (data, after)) : after.Drawn size := by
  induction limit generalizing r given with
  | zero =>
    cases htake
    exact h
  | succ limit ih =>
    rw [Readout.take] at htake
    split at htake
    · cases htake
    · rename_i hread
      cases htake
      exact h.read hread
    · rename_i hread
      exact ih (h.read hread) htake

end Readout

/-! ## Blocks under masks -/

theorem follow_replicate_zero (length : Nat) (places : List Nat) (count place : Nat) :
    Rotations.follow (List.replicate length 0) places count place = List.replicate count 0 := by
  induction count generalizing place with
  | zero => rfl
  | succ count ih =>
    have hzero : (List.replicate length (0 : UInt8)).getD place 0 = 0 := by
      rw [List.getD_eq_getElem?_getD, List.getElem?_replicate]
      split <;> rfl
    rw [Rotations.follow, hzero, ih, List.replicate_succ]

namespace Payload

open Huffman

/-- A byte is flipped exactly where the rule of the format says, for ever, and the counter of the
format gives the same masks; what a randomiser has left is never zero and fits in 16 bits. In a
randomised block the byte at each place of the walk is taken under the mask of that place, count
bytes like all others, and however many bytes of the data were read, the masks drawn are as many as
the bytes of the walk. So data written under the masks are read back. -/
theorem draws_masks :
    (∀ n, (Randomiser.maskAt n = 1 ↔ Randomiser.Flipped n) ∧
      (Randomiser.maskAt n = 0 ↔ ¬ Randomiser.Flipped n) ∧
      (Countdown.drawn n).next.1 = Randomiser.maskAt n ∧
      0 < (Randomiser.start.masks n).2.left ∧ (Randomiser.start.masks n).2.left < 2 ^ 16) ∧
    ∀ {limit : Nat} {head : Head} {used : List UInt8} {d : Decoder} {r rest : BitReader}
      {chunks : List (List UInt8)} {readout : Readout} {after : Payload},
      head.randomised = true →
      (start limit head used d).runChunks r chunks = .ok (some readout) (after, rest) →
      ∃ plain data last, readout.walk.Gives plain ∧
        plain.length = after.expansion.bytes.size ∧
        readout.drain #[] = .ok (data, last) ∧
        data.toList = RunLength.expand
          (List.zipWith (· ^^^ ·) plain ((List.range plain.length).map Randomiser.maskAt)) ∧
        (∀ count given mid, readout.take count #[] = .ok (given, mid) →
          mid.Drawn plain.length) ∧
        (∀ original, plain = Stream.masked true (RunLength.encode original) →
          data.toList = original) ∧
        ∀ original, after.expansion.bytes.size ≤ 2 ^ 24 →
          after.expansion.bytes.toList = Stream.BlockText.columnOf true original →
          (Rotations.sorted (Stream.BlockText.prepared true original))[head.pointer]? =
            some (Stream.BlockText.prepared true original) →
          data.toList = original := by
  refine ⟨fun n => ?_, fun hrandomised hrun => ?_⟩
  · obtain ⟨hone, hzero⟩ := Randomiser.maskAt_iff n
    exact ⟨hone, hzero, Countdown.mask_drawn n, Randomiser.left_masks n⟩
  · rename_i head _ _ _ _ _ _ after
    obtain ⟨walk, plain, hreadout, hgives, hlength, hunsort⟩ := gives_of_runChunks hrun
    rw [hrandomised] at hreadout
    subst hreadout
    obtain ⟨data, last, hdrain, hdata, -⟩ := Readout.drain_start hgives true head.stored
    have hread (original : List UInt8)
        (horiginal : plain = Stream.masked true (RunLength.encode original)) :
        data.toList = original := by
      rw [hdata, horiginal, Stream.masked_masked, RunLength.decode_encode]
    refine ⟨plain, data, last, hgives, hlength, hdrain, ?_, fun count given mid hmid => ?_, hread,
      fun original hsize hcolumn hrow => hread original ?_⟩
    · rw [hdata, RunLength.decode_eq_expand, Stream.masked, if_pos rfl, Randomiser.masks_start]
    · exact (Readout.drawn_start hgives.left_eq head.stored).take hmid
    · rw [hunsort hsize, hcolumn, Stream.BlockText.columnOf, Rotations.unsort_lastColumn hrow]
      rfl

/-- In a block of 618 equal bytes the last one is flipped. -/
theorem draws_masks_run :
    ∃ readout after rest data last,
      (start 618 ⟨0, true, 0⟩ [0] ⟨#[Table.ofLengths [2, 2, 2]], #[0], 0⟩).runChunks
        (BitReader.bind BitState.empty [0x51, 0x14, 0x20, 0, 0, 0]) [] =
          .ok (some readout) (after, rest) ∧
      readout.drain #[] = .ok (data, last) ∧ data.toList = List.replicate 494 0 ++ [1] := by
  have hserves : Decoder.Serves ⟨#[Table.ofLengths [2, 2, 2]], #[0], 0⟩
      ([1, 1, 0, 1, 0, 1, 1, 0, 0] ++ [(Expansion.start 618 [0]).used.size + 1])
      (words (fun _ => [2, 2, 2]) 0 [1, 1, 0, 1, 0, 1, 1, 0, 0, 2]) := by
    refine Decoder.serves_words fun symbol i hmem => ?_
    have hsmall : ∀ pair ∈ List.zipIdx [1, 1, 0, 1, 0, 1, 1, 0, 0, 2], 
        pair.1 < 3 ∧ pair.2 / Format.groupSize = 0 := by decide
    have hwords : ∀ symbol < 3,
        Canonical.codeWord? [2, 2, 2] symbol = some (Bits.ofNat 2 symbol) := by decide
    obtain ⟨hsymbol, hindex⟩ := hsmall _ hmem
    exact ⟨0, _, by rw [hindex]; rfl, rfl, hwords symbol hsymbol,
      by rw [Bits.length_ofNat]; decide⟩
  have hlength : (List.replicate 618 (0 : UInt8)).length = 618 := List.length_replicate
  have hcomplete : ∃ walk after rest,
      (start 618 ⟨0, true, 0⟩ [0] ⟨#[Table.ofLengths [2, 2, 2]], #[0], 0⟩).runChunks
        (BitReader.bind BitState.empty [0x51, 0x14, 0x20, 0, 0, 0]) [] =
          .ok (some (Readout.start walk true 0)) (after, rest) ∧
      walk.Gives (Rotations.unsort (List.replicate 618 0) 0) ∧
      rest.bits = List.replicate 28 false :=
    run_symbols (Expansion.holds_start 618 (by simp) (by decide)) (by decide) hserves
      (by decide) (by decide +kernel) (Nat.le_of_eq hlength) (by rw [hlength]; decide)
      (by rw [hlength]; decide) rfl (by decide)
  rw [Rotations.unsort, follow_replicate_zero, hlength] at hcomplete
  obtain ⟨walk, after, rest, hrun, hgives, -⟩ := hcomplete
  obtain ⟨plain, data, last, hplain, -, hdrain, hdata, -⟩ := draws_masks.2 rfl hrun
  obtain rfl := hplain.unique hgives
  refine ⟨_, after, rest, data, last, hrun, hdrain, ?_⟩
  rw [hdata, ← Randomiser.masks_start]
  decide +kernel

end Payload

end Bunzip.Block
