import Bunzip.BitReader

/-!
# Reading bits from a word

The reader of bits with its place as numbers: the bits of begun bytes stand in a word of 64 bits,
the carry and the chunk stay whole, and a count of each says how many of its bytes were begun. Bits
that were read are not cleared; they stand above the unread ones, and move out of the word as bytes
move in.
-/

namespace Bunzip

/-- The unread bits kept between chunks. -/
structure WordState where
  /-- The low `count` bits are unread. -/
  word : UInt64
  count : Nat
  /-- Bytes of earlier chunks that were not begun. -/
  carry : List UInt8
deriving Repr, DecidableEq, Inhabited

/-- A state of reading, bound to a chunk. -/
structure WordReader where
  kept : WordState
  /-- The number of bytes of the carry that were begun. -/
  begun : Nat
  chunk : List UInt8
  /-- The number of bytes of the chunk that were begun. -/
  used : Nat
deriving Repr, DecidableEq, Inhabited

namespace WordState

/-- No bits at all. -/
def empty : WordState := ⟨0, 0, []⟩

/-- The number of kept bits. -/
def pending (state : WordState) : Nat := state.count + state.carry.length * 8

/-- The state with one more byte in the word. -/
def shiftIn (state : WordState) (byte : UInt8) : WordState :=
  { state with word := state.word <<< 8 ||| byte.toUInt64, count := state.count + 8 }

end WordState

namespace WordReader

/-- Binds a chunk, which is read after the kept bits. -/
def bind (state : WordState) (chunk : List UInt8) : WordReader := ⟨state, 0, chunk, 0⟩

/-- The number of unread bits. -/
def available (r : WordReader) : Nat :=
  r.kept.count + (r.kept.carry.length - r.begun + (r.chunk.length - r.used)) * 8

/-- Whether `n` bits can be read. -/
def hasBits (r : WordReader) (n : Nat) : Bool := decide (n ≤ r.available)

/-- Moves the next byte into the word, of the carry before the chunk; none if there is none. -/
def pull? (r : WordReader) : Option WordReader :=
  match r.kept.carry[r.begun]? with
  | some byte => some { r with kept := r.kept.shiftIn byte, begun := r.begun + 1 }
  | none =>
    match r.chunk[r.used]? with
    | some byte => some { r with kept := r.kept.shiftIn byte, used := r.used + 1 }
    | none => none

theorem count_pull? {r next : WordReader} (h : r.pull? = some next) :
    next.kept.count = r.kept.count + 8 := by
  unfold pull? at h
  split at h
  · cases h; rfl
  split at h
  · cases h; rfl
  · cases h

/-- Moves bytes into the word until it has `n` unread bits, or there are none left. -/
def gather (n : Nat) (r : WordReader) : WordReader :=
  if r.kept.count < n then
    match _h : r.pull? with
    | some next => next.gather n
    | none => r
  else r
termination_by n - r.kept.count
decreasing_by have := count_pull? _h; omega

/-- The number that the next `n` bits write, for `n` up to 32. If there are fewer, zeros stand for
the bits that are missing. -/
def number (n : Nat) (r : WordReader) : UInt32 × WordReader :=
  let ⟨⟨word, count, carry⟩, begun, chunk, used⟩ := r.gather n
  let mask : UInt64 := (1 <<< UInt64.ofNat n) - 1
  if count < n then
    (((word <<< UInt64.ofNat (n - count)) &&& mask).toUInt32, ⟨⟨word, 0, carry⟩, begun, chunk, used⟩)
  else
    (((word >>> UInt64.ofNat (count - n)) &&& mask).toUInt32,
      ⟨⟨word, count - n, carry⟩, begun, chunk, used⟩)

/-- The next bit. -/
def bit (r : WordReader) : Bool × WordReader :=
  let (value, r) := r.number 1
  (value == 1, r)

/-- The next 32 bits, for a checksum. -/
def checksum (r : WordReader) : UInt32 × WordReader := r.number 32

/-- Moves one more byte into the word, unless it has more than 56 unread bits. -/
def refill (r : WordReader) : WordReader :=
  if r.kept.count ≤ 56 then r.pull?.getD r else r

/-- The part of the chunk that was not begun. -/
def unused (r : WordReader) : List UInt8 := r.chunk.drop r.used

/-- Keeps the word and the rest of the carry; the unread part of the chunk is `unused`. -/
def release (r : WordReader) : WordState := { r.kept with carry := r.kept.carry.drop r.begun }

/-- Keeps everything unread, so that the whole chunk counts as used. -/
def suspend (r : WordReader) : WordState :=
  { r.kept with carry := r.kept.carry.drop r.begun ++ r.unused }

end WordReader

end Bunzip
