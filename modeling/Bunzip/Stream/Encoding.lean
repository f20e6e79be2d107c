import Bunzip.Stream.Text

/-!
# Writing a stream

The text of a stream for given data. The format leaves choices to the writer, which are gathered in
`Choices`: whether the block is randomised, which of several equal rotations is named, the code
lengths of the tables, and the table of each group. `Admissible` says which choices the format
allows for given data.
-/

namespace Bunzip.Stream

open Huffman Block

/-- What a writer chooses for a block. -/
structure Choices where
  randomised : Bool
  /-- The row that is named as the unsorted data. -/
  pointer : Nat
  /-- The code lengths of each table. -/
  lengths : List (List Nat)
  /-- The table of each group. -/
  table : Nat → Nat

namespace LengthText

/-- The steps from one length to another. -/
def stepsTo (current wanted : Nat) : List Bool :=
  List.replicate (wanted - current) false ++ List.replicate (current - wanted) true

/-- The steps from each length to the next. -/
def stepsThrough : (current : Nat) → List Nat → List (List Bool)
  | _, [] => []
  | current, wanted :: rest => stepsTo current wanted :: stepsThrough wanted rest

/-- Code lengths written without detours. -/
def ofLengths (lengths : List Nat) : LengthText :=
  ⟨lengths.headD 0, stepsThrough (lengths.headD 0) lengths⟩

theorem running_stepsThrough (current : Nat) (lengths : List Nat) :
    running current (stepsThrough current lengths) = lengths.map Int.ofNat := by
  have down (n : Nat) (length : Int) : (List.replicate n true).foldl
      (fun length down => if down then length - 1 else length + 1) length = length - n := by
    induction n generalizing length with
    | zero => simp
    | succ n ih => simp only [List.replicate_succ, List.foldl_cons, ih]; simp; omega
  have up (n : Nat) (length : Int) : (List.replicate n false).foldl
      (fun length down => if down then length - 1 else length + 1) length = length + n := by
    induction n generalizing length with
    | zero => simp
    | succ n ih => simp only [List.replicate_succ, List.foldl_cons, ih]; simp; omega
  induction lengths generalizing current with
  | nil => rfl
  | cons wanted rest ih =>
    have hlength : (stepsTo current wanted).foldl
        (fun length down => if down then length - 1 else length + 1) (current : Int) = wanted := by
      rw [stepsTo, List.foldl_append, down, up]
      omega
    rw [stepsThrough, running, hlength, ih]
    rfl

theorem lengths_ofLengths (lengths : List Nat) :
    (ofLengths lengths).lengths = lengths.map Int.ofNat :=
  running_stepsThrough _ _

end LengthText

namespace BlockText

/-- The data with its runs cut short, and under its masks. -/
def prepared (randomised : Bool) (data : List UInt8) : List UInt8 :=
  masked randomised (RunLength.encode data)

/-- The last column of the sorted rotations of the prepared data. -/
def columnOf (randomised : Bool) (data : List UInt8) : List UInt8 :=
  Rotations.lastColumn (prepared randomised data)

/-- The bytes of a column in increasing order, each once. -/
def usedOf (column : List UInt8) : List UInt8 :=
  ((List.range 256).map UInt8.ofNat).filter column.contains

/-- The symbols of a column. -/
def symbolsOf (column : List UInt8) : List Nat :=
  (Token.ofBytes (usedOf column) column).map (Token.symbol (usedOf column).length)

def groupCount (symbols : Nat) : Nat := (symbols + Format.groupSize - 1) / Format.groupSize

/-- The block of given data. -/
def ofData (choices : Choices) (data : List UInt8) : BlockText :=
  let column := columnOf choices.randomised data
  let symbols := symbolsOf column
  let chosen := (List.range (groupCount symbols.length)).map choices.table
  { stored := Crc.ofBytes data
    randomised := choices.randomised
    pointer := choices.pointer
    groups := UsedMap.groupWord column.contains
    bitmaps := UsedMap.bitmaps column.contains
    positions := MoveToFront.encode ((List.range choices.lengths.length).map UInt8.ofNat)
      (chosen.map UInt8.ofNat)
    tables := choices.lengths.map LengthText.ofLengths
    symbols }

/-- What the format allows a writer to choose for given data. -/
structure Admissible (choices : Choices) (data : List UInt8) : Prop where
  /-- The row that is named is the prepared data. -/
  pointer_eq : (Rotations.sorted (prepared choices.randomised data))[choices.pointer]? =
    some (prepared choices.randomised data)
  tables_ge : Format.minTables ≤ choices.lengths.length
  tables_le : choices.lengths.length ≤ Format.maxTables
  length_lengths : ∀ lengths ∈ choices.lengths,
    lengths.length = (usedOf (columnOf choices.randomised data)).length + 2
  lengths_mem : ∀ lengths ∈ choices.lengths, ∀ length ∈ lengths,
    1 ≤ length ∧ length ≤ Format.maxCodeLength
  fits : ∀ lengths ∈ choices.lengths, Canonical.Fits lengths
  table_lt : ∀ group, choices.table group < choices.lengths.length

end BlockText

namespace StreamText

/-- The stream of given blocks of data, with the choices for each. -/
def ofData (digit : Nat) (blocks : List (Choices × List UInt8)) : StreamText :=
  ⟨digit, blocks.map fun (choices, data) => BlockText.ofData choices data⟩

end StreamText

end Bunzip.Stream
