import Bunzip.Bits

/-!
# Reading bits from chunks

A reader holds the bits of bytes it has begun, the bytes carried over from earlier chunks, and the
unread part of the chunk it is bound to. It reads them in this order, so its state is one string of
bits, `bits`: `take?` removes bits from the front of it (`take?_eq_some`), and nothing else changes
it. `suspend` and `release` end the work on a chunk; the first keeps the unread part of the chunk as
carry, the second hands it back.
-/

namespace Bunzip

/-- The unread bits kept between chunks. -/
structure BitState where
  /-- Bits of bytes that were begun. -/
  held : List Bool
  /-- Bytes of earlier chunks that were not begun. -/
  carry : List UInt8
deriving Repr, DecidableEq, Inhabited

/-- A state of reading, bound to a chunk. -/
structure BitReader where
  held : List Bool
  carry : List UInt8
  /-- The part of the chunk that was not begun. -/
  chunk : List UInt8
  /-- The number of bytes of the chunk that were begun. -/
  used : Nat
deriving Repr, DecidableEq, Inhabited

namespace BitState

def empty : BitState := ⟨[], []⟩

/-- The kept bits in reading order. -/
def bits (state : BitState) : List Bool :=
  state.held ++ Bits.ofBytes state.carry

def pending (state : BitState) : Nat :=
  state.held.length + 8 * state.carry.length

theorem pending_eq (state : BitState) : state.pending = state.bits.length := by
  simp [pending, bits]

end BitState

namespace BitReader

/-- Binds a chunk, which is read after the kept bits. -/
def bind (state : BitState) (chunk : List UInt8) : BitReader :=
  ⟨state.held, state.carry, chunk, 0⟩

def bits (r : BitReader) : List Bool :=
  r.held ++ Bits.ofBytes r.carry ++ Bits.ofBytes r.chunk

/-- Begins the next byte, if there is one. -/
def pull : BitReader → BitReader
  | ⟨held, byte :: carry, chunk, used⟩ => ⟨held ++ Bits.ofByte byte, carry, chunk, used⟩
  | ⟨held, [], byte :: chunk, used⟩ => ⟨held ++ Bits.ofByte byte, [], chunk, used + 1⟩
  | ⟨held, [], [], used⟩ => ⟨held, [], [], used⟩

/-- Begins up to `count` more bytes. -/
def fetch : Nat → BitReader → BitReader
  | 0, r => r
  | count + 1, r => fetch count r.pull

/-- The number of bytes to begin before `n` bits are held. -/
def missing (r : BitReader) (n : Nat) : Nat := (n - r.held.length + 7) / 8

/-- Whether `n` bits can be read. -/
def hasBits (r : BitReader) (n : Nat) : Bool :=
  decide (r.missing n ≤ r.carry.length) ||
    !(r.chunk.drop (r.missing n - r.carry.length - 1)).isEmpty

/-- Whether `n` whole bytes can be read. Their bits are counted in a word of 64 bits. -/
def hasBytes (r : BitReader) (n : Nat) : Bool := r.hasBits (8 * n % 2 ^ 64)

/-- Whether any bit can be read. -/
def readable (r : BitReader) : Bool := r.hasBits 1

/-- The number that the next `n` bits write; none if there are fewer. Only bytes that are needed are
begun, so fewer than eight bits stay held if fewer than eight were held before. -/
def take? (r : BitReader) (n : Nat) : Option (Nat × BitReader) :=
  match fetch (r.missing n) r with
  | ⟨held, carry, chunk, used⟩ =>
    if n ≤ held.length then some (Bits.value (held.take n), ⟨held.drop n, carry, chunk, used⟩)
    else none

/-- Begins one more byte, unless more than 56 bits are held. -/
def refill (r : BitReader) : BitReader :=
  if r.held.length ≤ 56 then r.pull else r

def remaining (r : BitReader) : Nat := r.chunk.length

/-- Keeps everything unread, so that the whole chunk counts as used. -/
def suspend (r : BitReader) : BitState := ⟨r.held, r.carry ++ r.chunk⟩

/-- Keeps the held bits and the carry; the unread part of the chunk is `chunk`. -/
def release (r : BitReader) : BitState := ⟨r.held, r.carry⟩

/-- The place in the chunk, as bytes begun and bits held. -/
def location (r : BitReader) : String :=
  "[" ++ toString r.used ++ "." ++ toString r.held.length ++ "]"

/-! ## The unread bits -/

@[simp] theorem bits_bind (state : BitState) (chunk : List UInt8) :
    (bind state chunk).bits = state.bits ++ Bits.ofBytes chunk := rfl

@[simp] theorem bits_pull (r : BitReader) : r.pull.bits = r.bits := by
  unfold pull
  split <;> simp [bits]

@[simp] theorem bits_fetch (count : Nat) (r : BitReader) : (fetch count r).bits = r.bits := by
  induction count generalizing r with
  | zero => rfl
  | succ count ih => rw [fetch, ih, bits_pull]

@[simp] theorem bits_refill (r : BitReader) : r.refill.bits = r.bits := by
  unfold refill
  split <;> simp

@[simp] theorem bits_suspend (r : BitReader) : r.suspend.bits = r.bits := by
  simp [suspend, BitState.bits, bits]

theorem bits_release (r : BitReader) : r.release.bits ++ Bits.ofBytes r.chunk = r.bits := rfl

theorem length_bits (r : BitReader) :
    r.bits.length = r.held.length + 8 * r.carry.length + 8 * r.chunk.length := by
  simp [bits, Nat.add_assoc]

theorem length_held_fetch (count : Nat) (r : BitReader) :
    (fetch count r).held.length =
      r.held.length + 8 * min count (r.carry.length + r.chunk.length) := by
  induction count generalizing r with
  | zero => simp [fetch]
  | succ count ih =>
    rw [fetch, ih]
    obtain ⟨held, carry, chunk, used⟩ := r
    cases carry with
    | cons byte carry => simp [pull]; omega
    | nil =>
      cases chunk with
      | cons byte chunk => simp [pull]; omega
      | nil => simp [pull]

theorem hasBits_iff (r : BitReader) (n : Nat) : r.hasBits n = true ↔ n ≤ r.bits.length := by
  have hmissing : r.missing n = (n - r.held.length + 7) / 8 := rfl
  rw [length_bits, hasBits, Bool.or_eq_true, decide_eq_true_eq, Bool.not_eq_true',
    List.isEmpty_eq_false_iff, ne_eq, List.drop_eq_nil_iff]
  omega

/-- A read removes its bits from the front of the unread bits. -/
theorem take?_eq_some (r : BitReader) (n : Nat) (h : n ≤ r.bits.length) :
    ∃ next, r.take? n = some (Bits.value (r.bits.take n), next) ∧ next.bits = r.bits.drop n := by
  have hheld := length_held_fetch (r.missing n) r
  have hbits := bits_fetch (r.missing n) r
  rw [length_bits] at h
  rw [take?]
  generalize fetch (r.missing n) r = fetched at *
  obtain ⟨held, carry, chunk, used⟩ := fetched
  have hle : n ≤ held.length := by simp only [missing] at *; omega
  refine ⟨⟨held.drop n, carry, chunk, used⟩, ?_, ?_⟩
  · simp only [if_pos hle]
    rw [← hbits, bits, List.append_assoc, List.take_append_of_le_length hle]
  · rw [← hbits, bits, bits, List.append_assoc, List.append_assoc,
      List.drop_append_of_le_length hle]

theorem take?_eq_none (r : BitReader) (n : Nat) (h : r.bits.length < n) : r.take? n = none := by
  have hheld := length_held_fetch (r.missing n) r
  rw [length_bits] at h
  rw [take?]
  generalize fetch (r.missing n) r = fetched at *
  obtain ⟨held, carry, chunk, used⟩ := fetched
  have hlt : ¬ n ≤ held.length := by simp only [missing] at *; omega
  simp [hlt]

theorem length_bits_take? {r next : BitReader} {n value : Nat}
    (h : r.take? n = some (value, next)) : next.bits.length + n = r.bits.length := by
  by_cases hle : n ≤ r.bits.length
  · obtain ⟨other, htake, hbits⟩ := r.take?_eq_some n hle
    rw [h] at htake
    simp only [Option.some.injEq, Prod.mk.injEq] at htake
    rw [htake.2, hbits, List.length_drop]
    omega
  · rw [r.take?_eq_none n (by omega)] at h
    simp at h

end BitReader

end Bunzip
