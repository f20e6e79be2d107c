import Bunzip.Fault

/-!
# Undoing the sort

The bytes of a block are the last column of its sorted rotations. Sorting the bytes themselves, and
keeping for each the place it came from, gives the first column with a link from every row to the
row that begins one byte later. A `Walk` follows these links from the row of the unsorted block.

A link keeps a place and a byte in one word: the place in the upper 24 bits, the byte in the lower
eight.
-/

namespace Bunzip.Block

/-- The link to a place, with a byte. -/
def link (place : Nat) (byte : UInt8) : UInt32 :=
  (place.toUInt32 <<< 8) ||| byte.toUInt32

def linkPlace (link : UInt32) : Nat := (link >>> 8).toNat

def linkByte (link : UInt32) : UInt8 := link.toUInt8

/-- For each byte the number of smaller bytes, from the number of times that each occurs. -/
def firstPlaces (counts : List Nat) (before : Nat) : List Nat :=
  match counts with
  | [] => []
  | count :: rest => before :: firstPlaces rest (before + count)

/-- Sorts bytes by counting: each goes to the next free place of its kind, as a link to the place it
came from. -/
def sortLinks : (bytes : List UInt8) → (place : Nat) → (free : Array Nat) → (links : Array UInt32) →
    Except Fault (Array UInt32)
  | [], _, _, links => .ok links
  | byte :: rest, place, free, links =>
    match free[byte.toNat]? with
    | none => .error (.defect .noSortedPlace)
    | some slot =>
      if slot < links.size then
        sortLinks rest (place + 1) (free.setIfInBounds byte.toNat (slot + 1))
          (links.setIfInBounds slot (link place byte))
      else .error (.defect .noSortedPlace)

/-- A way through the rows of a block. -/
structure Walk where
  links : Array UInt32
  /-- The link of the row reached. -/
  current : UInt32
  /-- The number of bytes not yet given. -/
  left : Nat
deriving Repr, DecidableEq, Inhabited

namespace Walk

/-- The walk that begins at the row `pointer` of a block. -/
def start (bytes : Array UInt8) (counts : Array Nat) (pointer : Nat) : Except Fault Walk :=
  if bytes.size ≤ pointer then .error (.stream (.invalidStartPointer pointer bytes.size))
  else
    match sortLinks bytes.toList 0 (firstPlaces counts.toList 0).toArray
        (Array.replicate bytes.size 0) with
    | .error fault => .error fault
    | .ok links =>
      match links[pointer]? with
      | none => .error (.defect .strayLink)
      | some current => .ok ⟨links, current, bytes.size⟩

/-- The byte of the row reached; the walk goes on to the row it links to. -/
def next (walk : Walk) : Except Fault (UInt8 × Walk) :=
  match walk.links[linkPlace walk.current]? with
  | none => .error (.defect .strayLink)
  | some after => .ok (linkByte walk.current, ⟨walk.links, after, walk.left - 1⟩)

end Walk

/-! ## Links -/

@[simp] theorem linkByte_link (place : Nat) (byte : UInt8) : linkByte (link place byte) = byte := by
  unfold linkByte link
  apply UInt8.toBitVec_inj.1
  simp

theorem linkPlace_link_mod (place : Nat) (byte : UInt8) :
    linkPlace (link place byte) = place % 2 ^ 24 := by
  unfold linkPlace link
  have hbyte : byte.toNat / 2 ^ 8 = 0 := Nat.div_eq_of_lt byte.toNat_lt
  have hplace : place.toUInt32.toNat = place % 2 ^ 32 := rfl
  have height : (8 : UInt32).toNat % 32 = 8 := rfl
  rw [UInt32.toNat_shiftRight, UInt32.toNat_or, UInt32.toNat_shiftLeft, hplace, height,
    Nat.shiftRight_or_distrib, UInt8.toNat_toUInt32, Nat.shiftLeft_eq, Nat.shiftRight_eq_div_pow,
    Nat.shiftRight_eq_div_pow, hbyte, Nat.or_zero]
  omega

theorem linkPlace_link (place : Nat) (byte : UInt8) (h : place < 2 ^ 24) :
    linkPlace (link place byte) = place := by
  rw [linkPlace_link_mod, Nat.mod_eq_of_lt h]

end Bunzip.Block
