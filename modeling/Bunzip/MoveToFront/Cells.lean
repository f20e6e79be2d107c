import Bunzip.MoveToFront

/-!
# Move to front in place

The table in 256 cells. To bring a byte to the front, each cell before it hands its byte on to the
next cell, the last one first, so that every cell is read before it is written. This is done four
cells to a round while there are four, then cell by cell.
-/

namespace Bunzip.MoveToFront

/-- The table in 256 cells, of which the first `size` are in use. -/
structure Cells where
  bytes : Vector UInt8 256
  size : Nat
  size_le : size ≤ 256
deriving Repr, DecidableEq

namespace Cells

/-- The bytes `0, 1, …`, those below `size` in use. -/
def start (size : Nat) : Cells :=
  ⟨Vector.ofFn fun i => UInt8.ofNat i, min size 256, Nat.min_le_right ..⟩

/-- Cell `i` hands its byte on to the next cell. -/
def handOn (bytes : Vector UInt8 256) (i : Nat) (h : i + 1 < 256) : Vector UInt8 256 :=
  bytes.set (i + 1) bytes[i]

/-- The cells before cell `i` hand on their bytes one by one. -/
def handOnEach (bytes : Vector UInt8 256) : (i : Nat) → i < 256 → Vector UInt8 256
  | 0, _ => bytes
  | i + 1, h => handOnEach (handOn bytes i h) i (Nat.lt_of_succ_lt h)

/-- The cells before cell `i` hand on their bytes in rounds of four, and those that are left one by
one. -/
def handOnAll (bytes : Vector UInt8 256) : (i : Nat) → i < 256 → Vector UInt8 256
  | i + 4, h =>
    have h₃ : i + 3 < 256 := Nat.lt_of_succ_lt h
    have h₂ : i + 2 < 256 := Nat.lt_of_succ_lt h₃
    have h₁ : i + 1 < 256 := Nat.lt_of_succ_lt h₂
    let bytes := handOn bytes (i + 3) h
    let bytes := handOn bytes (i + 2) h₃
    let bytes := handOn bytes (i + 1) h₂
    handOnAll (handOn bytes i h₁) i (Nat.lt_of_succ_lt h₁)
  | i, h => handOnEach bytes i h

/-- The byte at an index, which moves to the front; none if there is no such cell. -/
def toFront? (t : Cells) (index : Nat) : Option (UInt8 × Cells) :=
  if h : index < 256 then
    let byte := t.bytes[index]
    some (byte, { t with bytes := (handOnAll t.bytes index h).set 0 byte })
  else none

/-- The bytes at a list of indices, each of which moves to the front in its turn. -/
def toFrontAll? (t : Cells) : List Nat → Option (List UInt8 × Cells)
  | [] => some ([], t)
  | index :: rest =>
    match t.toFront? index with
    | none => none
    | some (byte, t) =>
      match t.toFrontAll? rest with
      | none => none
      | some (bytes, t) => some (byte :: bytes, t)

def toList (t : Cells) : List UInt8 := t.bytes.toList.take t.size

/-- The table that the cells stand for. -/
def toTable (t : Cells) : MoveToFront := ⟨t.toList.toArray⟩

end Cells

end Bunzip.MoveToFront
