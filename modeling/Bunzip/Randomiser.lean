import Bunzip.Randomiser.Intervals

/-!
# The randomiser

A block may be written with the low bit of some of its bytes flipped. The flipped places lie at
distances taken from the table `intervals`, one less for the first. `next` gives the mask of the
next byte, one at a flipped place and zero elsewhere.

The format states the rule as a counter. Before every byte a `Countdown` is loaded with the next
interval if it has run out, and goes down by one; the byte is flipped if one is left.
-/

namespace Bunzip

/-- A place in the sequence of masks. -/
structure Randomiser where
  /-- The interval in use. -/
  index : Fin 512
  /-- Bytes up to the next flip, that one included. -/
  left : Nat
deriving Repr, DecidableEq, Inhabited

namespace Randomiser

def start : Randomiser := ⟨0, intervals.get 0 - 1⟩

def next (r : Randomiser) : UInt8 × Randomiser :=
  if r.left = 1 then (1, ⟨r.index + 1, intervals.get (r.index + 1)⟩) else (0, ⟨r.index, r.left - 1⟩)

/-- The masks of the next `count` bytes. -/
def masks : Nat → Randomiser → List UInt8 × Randomiser
  | 0, r => ([], r)
  | count + 1, r =>
    let (mask, r) := r.next
    let (rest, r) := masks count r
    (mask :: rest, r)

/-! ## Places of the flips -/

/-- The sum of the first `count` intervals, the table being used over and over. -/
def total : (count : Nat) → Nat
  | 0 => 0
  | count + 1 => total count + intervals.get (Fin.ofNat 512 count)

/-- The rule of the format: byte `n` is flipped if `n + 2` is the sum of some first intervals. -/
def Flipped (n : Nat) : Prop := ∃ count, 0 < count ∧ total count = n + 2

@[simp] theorem masks_zero (r : Randomiser) : masks 0 r = ([], r) := rfl

theorem length_masks (count : Nat) (r : Randomiser) : (masks count r).1.length = count := by
  induction count generalizing r with
  | zero => rfl
  | succ count ih => simp [masks, ih]

end Randomiser

/-! ## The counter of the format -/

/-- A counter that is loaded with one interval after the other. -/
structure Countdown where
  /-- The interval to load next. -/
  index : Fin 512
  left : Nat
deriving Repr, DecidableEq, Inhabited

namespace Countdown

def start : Countdown := ⟨0, 0⟩

/-- A counter that has run out is loaded. -/
def load (c : Countdown) : Countdown :=
  if c.left = 0 then ⟨c.index + 1, Randomiser.intervals.get c.index⟩ else c

def next (c : Countdown) : UInt8 × Countdown :=
  let left := c.load.left - 1
  (if left = 1 then 1 else 0, ⟨c.load.index, left⟩)

/-- The counter after `count` bytes. -/
def drawn : (count : Nat) → Countdown
  | 0 => start
  | count + 1 => (drawn count).next.2

end Countdown

end Bunzip
