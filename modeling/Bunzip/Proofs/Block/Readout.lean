import Bunzip.Block.Readout
import Bunzip.Proofs.Block.Walk
import Bunzip.Stream.Text

/-!
# The data of a walk

A readout takes the bytes of its walk under their masks (`Supplies`). Its data are what
`RunLength.decode` says of them, and its checksum is that of the data (`Readout.drain_start`).
-/

namespace Bunzip.Block

open RunLength

variable {walk : Walk} {masks : Option Randomiser} {bytes : List UInt8} {given : Array UInt8}

/-- A walk and its masks give these bytes. -/
def Supplies (walk : Walk) (masks : Option Randomiser) : List UInt8 → Prop
  | [] => walk.left = 0
  | byte :: rest => walk.left = rest.length + 1 ∧ ∃ walk' masks', Supplies walk' masks' rest ∧
    ∀ last equal copies crc stored,
      Readout.nextByte ⟨walk, masks, last, equal, copies, crc, stored⟩ =
        .ok (byte, ⟨walk', masks', last, equal, copies, crc, stored⟩)

theorem Supplies.left_eq (h : Supplies walk masks bytes) : walk.left = bytes.length := by
  cases bytes with
  | nil => exact h
  | cons => exact h.1

theorem supplies_none (h : walk.Gives bytes) : Supplies walk none bytes := by
  induction bytes generalizing walk with
  | nil => exact h
  | cons byte rest ih =>
    obtain ⟨hleft, after, hnext, hafter⟩ := h
    refine ⟨hleft, after, none, ih hafter, fun last equal copies crc stored => ?_⟩
    simp only [Readout.nextByte, hnext]

theorem supplies_some (h : walk.Gives bytes) (r : Randomiser) :
    Supplies walk (some r) (List.zipWith (· ^^^ ·) bytes (r.masks bytes.length).1) := by
  induction bytes generalizing walk r with
  | nil => exact h
  | cons byte rest ih =>
    obtain ⟨hleft, after, hnext, hafter⟩ := h
    rw [List.length_cons, Randomiser.masks, List.zipWith_cons_cons]
    refine ⟨?_, after, some r.next.2, ih hafter r.next.2, fun last equal copies crc stored => ?_⟩
    · rw [hleft, List.length_zipWith, Randomiser.length_masks, Nat.min_self]
    · simp only [Readout.nextByte, hnext]

theorem supplies_masked (h : walk.Gives bytes) (randomised : Bool) :
    Supplies walk (if randomised then some Randomiser.start else none)
      (Stream.masked randomised bytes) := by
  cases randomised with
  | true => exact supplies_some h Randomiser.start
  | false => exact supplies_none h

namespace Readout

variable {r after : Readout} {last : Option UInt8} {equal : Nat} {crc : Crc} {stored : UInt32}

/-! ## Draining -/

theorem drain_of_read {byte : UInt8} (h : r.read = .ok (some byte, after)) :
    r.drain given = after.drain (given.push byte) := by
  conv => lhs; rw [drain]
  split
  · simp_all
  · simp_all
  · rename_i heq
    rw [h] at heq
    cases heq
    rfl

theorem drain_of_end (hcopies : r.copies = 0) (hleft : r.walk.left = 0) :
    r.drain given = .ok (given, r) := by
  have hread : r.read = .ok (none, r) := by
    rw [read, if_neg (by omega), if_pos hleft]
  rw [drain]
  split <;> simp_all

theorem drain_copies {byte : UInt8} (copies : Nat) (given : Array UInt8) :
    drain ⟨walk, masks, some byte, equal, copies, crc, stored⟩ given =
      drain ⟨walk, masks, some byte, equal, 0, crc, stored⟩ (pushCopies given byte copies) := by
  induction copies generalizing given with
  | zero => rfl
  | succ copies ih =>
    have hread : read ⟨walk, masks, some byte, equal, copies + 1, crc, stored⟩ =
        .ok (some byte, ⟨walk, masks, some byte, equal, copies, crc, stored⟩) := by
      rw [read, if_pos (Nat.succ_ne_zero copies)]
      rfl
    rw [drain_of_read hread, pushCopies, ih]

/-- A readout without copies has these data left, which its checksum takes in. -/
def Yields (r : Readout) (data : List UInt8) : Prop :=
  ∀ given : Array UInt8, ∃ all after, r.drain given = .ok (all, after) ∧
    all.toList = given.toList ++ data ∧ after.crc = r.crc.updateAll data ∧ after.stored = r.stored

theorem yields_nil (hleft : walk.left = 0) :
    Yields ⟨walk, masks, last, equal, 0, crc, stored⟩ [] := by
  intro given
  exact ⟨given, _, drain_of_end rfl hleft, (List.append_nil _).symm, rfl, rfl⟩

/-- The copies that a fill supplies come before what is left behind it. -/
theorem yields_of_fill {walk' : Walk} {masks' : Option Randomiser} {byte : UInt8}
    {equal' copies : Nat} {back : List UInt8} (hleft : walk.left ≠ 0)
    (hfill : fill ⟨walk, masks, last, equal, 0, crc, stored⟩ = .ok ⟨walk', masks', some byte, equal',
      copies + 1, crc.updateRepeated byte (copies + 1), stored⟩)
    (h : Yields ⟨walk', masks', some byte, equal', 0, crc.updateRepeated byte (copies + 1), stored⟩
      back) :
    Yields ⟨walk, masks, last, equal, 0, crc, stored⟩
      (List.replicate (copies + 1) byte ++ back) := by
  intro given
  obtain ⟨all, after, hdrain, hall, hcrc, hstored⟩ := h (pushCopies given byte (copies + 1))
  have hread : read ⟨walk, masks, last, equal, 0, crc, stored⟩ = .ok (some byte, ⟨walk', masks',
      some byte, equal', copies, crc.updateRepeated byte (copies + 1), stored⟩) := by
    rw [read, if_neg (by simp), if_neg hleft, hfill]
    rfl
  refine ⟨all, after, ?_, ?_, ?_, hstored⟩
  · rw [drain_of_read hread, drain_copies, ← hdrain, pushCopies]
  · rw [hall, Expansion.toList_pushCopies, List.append_assoc]
  · rw [hcrc, Crc.updateAll_append, Crc.updateRepeated_eq]

/-- What is left is what the bytes of the walk say behind the last byte. -/
theorem yields_decode (h : Supplies walk masks bytes) (crc : Crc) (stored : UInt32) :
    Yields ⟨walk, masks, last, equal, 0, crc, stored⟩ (decode last equal bytes) := by
  induction last, equal, bytes using decode.induct generalizing walk masks crc with
  | case1 last equal =>
    rw [decode]
    exact yields_nil h
  | case2 last equal byte rest hne ih =>
    obtain ⟨hleft, walk', masks', hrest, hnext⟩ := h
    have hfill : fill ⟨walk, masks, last, equal, 0, crc, stored⟩ =
        .ok ⟨walk', masks', some byte, 1, 1, crc.updateRepeated byte 1, stored⟩ := by
      simp only [fill, hnext, if_pos hne]
      rfl
    rw [decode.eq_def]
    simp only [if_pos hne]
    exact yields_of_fill (by omega) hfill (ih hrest _)
  | case3 last equal byte rest heq hne ih =>
    obtain ⟨hleft, walk', masks', hrest, hnext⟩ := h
    have hfill : fill ⟨walk, masks, last, equal, 0, crc, stored⟩ =
        .ok ⟨walk', masks', some byte, equal + 1, 1, crc.updateRepeated byte 1, stored⟩ := by
      simp only [fill, hnext, if_neg heq, if_pos hne]
      rfl
    rw [decode.eq_def]
    simp only [if_neg heq, if_pos hne]
    exact yields_of_fill (by omega) hfill (ih hrest _)
  | case4 last equal byte heq hfour =>
    obtain ⟨hleft, walk', masks', hend, hnext⟩ := h
    have hempty : walk'.left = 0 := hend
    have hfill : fill ⟨walk, masks, last, equal, 0, crc, stored⟩ =
        .ok ⟨walk', masks', some byte, 0, 1, crc.updateRepeated byte 1, stored⟩ := by
      simp only [fill, hnext, if_neg heq, if_neg hfour, if_pos hempty]
      rfl
    rw [decode.eq_def]
    simp only [if_neg heq, if_neg hfour]
    exact yields_of_fill (by omega) hfill (yields_nil hend)
  | case5 last equal byte heq hfour count rest ih =>
    obtain ⟨hleft, walk', masks', ⟨hmore, walk'', masks'', hrest, hcount⟩, hnext⟩ := h
    have hsome : walk'.left ≠ 0 := by omega
    have hfill : fill ⟨walk, masks, last, equal, 0, crc, stored⟩ =
        .ok ⟨walk'', masks'', some byte, 0, count.toNat + 1,
          crc.updateRepeated byte (count.toNat + 1), stored⟩ := by
      simp only [fill, hnext, if_neg heq, if_neg hfour, if_neg hsome, hcount]
      rfl
    rw [decode.eq_def]
    simp only [if_neg heq, if_neg hfour]
    exact yields_of_fill (by omega) hfill (ih hrest _)

/-- A readout gives the data of its block. -/
theorem drain_start (h : walk.Gives bytes) (randomised : Bool) (stored : UInt32) :
    ∃ data after, (start walk randomised stored).drain #[] = .ok (data, after) ∧
      data.toList = decode none 0 (Stream.masked randomised bytes) ∧
      after.crc.value = Crc.ofBytes data.toList ∧ after.stored = stored := by
  have hyields : Yields (start walk randomised stored)
      (decode none 0 (Stream.masked randomised bytes)) :=
    yields_decode (supplies_masked h randomised) Crc.start stored
  obtain ⟨data, after, hdrain, hdata, hcrc, hstored⟩ := hyields #[]
  refine ⟨data, after, hdrain, hdata, ?_, hstored⟩
  rw [hcrc, ← Crc.value_updateAll_start, hdata]
  rfl

end Readout

end Bunzip.Block
