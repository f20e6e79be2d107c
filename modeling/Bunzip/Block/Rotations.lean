/-!
# Sorted rotations

The rotations of a byte sequence, sorted as words, form a square whose last column is what a block
holds; with the number of the row that is the sequence itself the square can be rebuilt. `unsort`
does this for any column: it sorts the column's places by their bytes, equal bytes in order, and
follows the places from the given row.
-/

namespace Bunzip.Block.Rotations

/-- The rotations of a sequence, each beginning one byte later than the one before. -/
def all (bytes : List UInt8) : List (List UInt8) :=
  (List.range bytes.length).map fun i => bytes.drop i ++ bytes.take i

/-- The rows of the square. -/
def sorted (bytes : List UInt8) : List (List UInt8) :=
  (all bytes).mergeSort fun a b => decide (a ≤ b)

/-- The last column of the square. -/
def lastColumn (bytes : List UInt8) : List UInt8 :=
  (sorted bytes).map fun row => row.getLastD 0

/-- The places of a column in the order of their bytes, equal bytes in the order of places. -/
def sortedPlaces (column : List UInt8) : List Nat :=
  (List.range column.length).mergeSort fun i j => decide (column.getD i 0 ≤ column.getD j 0)

/-- The bytes met from a place on: each place is followed by the one that it sorts to. -/
def follow (column : List UInt8) (places : List Nat) : (count place : Nat) → List UInt8
  | 0, _ => []
  | count + 1, place =>
    column.getD place 0 :: follow column places count (places.getD place 0)

/-- The sequence whose square has this last column and has it in the row `pointer`. -/
def unsort (column : List UInt8) (pointer : Nat) : List UInt8 :=
  let places := sortedPlaces column
  follow column places column.length (places.getD pointer 0)

/-! ## Sizes -/

@[simp] theorem length_sorted (bytes : List UInt8) : (sorted bytes).length = bytes.length := by
  simp [sorted, all, List.length_mergeSort]

@[simp] theorem length_lastColumn (bytes : List UInt8) :
    (lastColumn bytes).length = bytes.length := by
  simp [lastColumn]

theorem length_follow (column : List UInt8) (places : List Nat) (count place : Nat) :
    (follow column places count place).length = count := by
  induction count generalizing place with
  | zero => rfl
  | succ count ih => simp [follow, ih]

@[simp] theorem length_unsort (column : List UInt8) (pointer : Nat) :
    (unsort column pointer).length = column.length := length_follow ..

theorem sortedPlaces_perm (column : List UInt8) :
    (sortedPlaces column).Perm (List.range column.length) :=
  List.mergeSort_perm ..

end Bunzip.Block.Rotations
