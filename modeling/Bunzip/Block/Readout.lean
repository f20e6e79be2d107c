import Bunzip.Block.Walk
import Bunzip.Crc
import Bunzip.Randomiser

/-!
# Reading out a block

The bytes of the walk, with their masks if the block is randomised, are runs cut short: after four
equal bytes the next byte counts further copies. A `Readout` gives the data byte by byte; the
checksum takes in a whole run when its first byte is given. `drain` gives all that is left.
-/

namespace Bunzip.Block

/-- A place in the data of a block. -/
structure Readout where
  walk : Walk
  /-- The masks still to come, if the block is randomised. -/
  masks : Option Randomiser
  /-- The byte given last. -/
  last : Option UInt8
  /-- How many equal bytes ended the walk so far, not counting those before a count byte. -/
  equal : Nat
  /-- Copies of the last byte still to be given. -/
  copies : Nat
  crc : Crc
  /-- The checksum that the block should have. -/
  stored : UInt32
deriving Repr, DecidableEq, Inhabited

namespace Readout

/-- Nothing was given. -/
def start (walk : Walk) (randomised : Bool) (stored : UInt32) : Readout :=
  { walk
    masks := if randomised then some Randomiser.start else none
    last := none
    equal := 0
    copies := 0
    crc := Crc.start
    stored }

/-- The next byte of the walk under its mask. -/
def nextByte (r : Readout) : Except Fault (UInt8 × Readout) :=
  match r with
  | ⟨walk, masks, last, equal, copies, crc, stored⟩ =>
    match walk.next with
    | .error fault => .error fault
    | .ok (byte, walk) =>
      match masks with
      | none => .ok (byte, ⟨walk, none, last, equal, copies, crc, stored⟩)
      | some masks =>
        let (mask, masks) := masks.next
        .ok (byte ^^^ mask, ⟨walk, some masks, last, equal, copies, crc, stored⟩)

/-- Makes `copies` copies of `byte` the next bytes to give. -/
def supply (r : Readout) (byte : UInt8) (equal copies : Nat) : Readout :=
  { r with last := some byte, equal, copies, crc := r.crc.updateRepeated byte copies }

/-- Reads the next byte of the walk, and its count after four equal bytes. A block that ends after
the fourth byte has no count. -/
def fill (r : Readout) : Except Fault Readout :=
  match r.nextByte with
  | .error fault => .error fault
  | .ok (byte, r) =>
    if r.last ≠ some byte then .ok (r.supply byte 1 1)
    else if r.equal + 1 ≠ 4 then .ok (r.supply byte (r.equal + 1) 1)
    else if r.walk.left = 0 then .ok (r.supply byte 0 1)
    else
      match r.nextByte with
      | .error fault => .error fault
      | .ok (count, r) => .ok (r.supply byte 0 (count.toNat + 1))

def give (r : Readout) : Option UInt8 × Readout :=
  (r.last, { r with copies := r.copies - 1 })

/-- The next byte of the data; none at the end. -/
def read (r : Readout) : Except Fault (Option UInt8 × Readout) :=
  if r.copies ≠ 0 then .ok r.give
  else if r.walk.left = 0 then .ok (none, r)
  else
    match r.fill with
    | .error fault => .error fault
    | .ok r => .ok r.give

/-- The checksum of the bytes given, if it is the one the block should have. -/
def checkCrc (r : Readout) : Except Fault UInt32 :=
  if r.crc.value = r.stored then .ok r.crc.value
  else .error (.stream (.blockCrcMismatch r.stored r.crc.value))

/-- Up to `limit` more bytes, after the bytes `given`. -/
def take : (limit : Nat) → Readout → (given : Array UInt8) → Except Fault (Array UInt8 × Readout)
  | 0, r, given => .ok (given, r)
  | limit + 1, r, given =>
    match r.read with
    | .error fault => .error fault
    | .ok (none, r) => .ok (given, r)
    | .ok (some byte, r) => take limit r (given.push byte)

/-! ## The end of the data -/

theorem left_nextByte {r after : Readout} {byte : UInt8} (h : r.nextByte = .ok (byte, after)) :
    after.walk.left = r.walk.left - 1 := by
  unfold nextByte Walk.next at h
  grind

theorem left_fill {r after : Readout} (h : r.fill = .ok after) :
    after.walk.left < r.walk.left ∨ r.walk.left = 0 := by
  unfold fill at h
  split at h
  · cases h
  · rename_i byte mid hmid
    have hleft := left_nextByte hmid
    split at h
    · cases h; simp only [supply]; omega
    split at h
    · cases h; simp only [supply]; omega
    split at h
    · cases h; simp only [supply]; omega
    split at h
    · cases h
    · rename_i count last hlast
      have := left_nextByte hlast
      cases h
      simp only [supply]
      omega

theorem read_decreases {r after : Readout} {byte : UInt8} (h : r.read = .ok (some byte, after)) :
    after.walk.left < r.walk.left ∨ after.walk.left = r.walk.left ∧ after.copies < r.copies := by
  unfold read at h
  split at h
  · simp only [give, Except.ok.injEq, Prod.mk.injEq] at h
    obtain ⟨_, rfl⟩ := h
    exact .inr ⟨rfl, by simp only; omega⟩
  split at h
  · cases h
  split at h
  · cases h
  · rename_i mid hmid
    have := left_fill hmid
    simp only [give, Except.ok.injEq, Prod.mk.injEq] at h
    obtain ⟨_, rfl⟩ := h
    simp only
    omega

/-- Everything that is left, after the bytes `given`. -/
def drain (r : Readout) (given : Array UInt8) : Except Fault (Array UInt8 × Readout) :=
  match _h : r.read with
  | .error fault => .error fault
  | .ok (none, r) => .ok (given, r)
  | .ok (some byte, after) => drain after (given.push byte)
termination_by (r.walk.left, r.copies)
decreasing_by
  rcases read_decreases _h with hleft | ⟨hleft, hcopies⟩
  · exact .left _ _ hleft
  · rw [hleft]; exact .right _ hcopies

end Readout

end Bunzip.Block
