import Bunzip.Capacity
import Bunzip.Huffman.Decoder
import Bunzip.MoveToFront

/-!
# Setting up the tables of a block

The head of a block gives, one after the other, the selectors and the code lengths. Selectors are
written as positions in a list of tables ordered by last use; `setSelector` turns them back into
tables. A code length is checked when it is stored.
-/

namespace Bunzip.Huffman

/-- The selectors and code lengths of a block while they are read. -/
structure Setup where
  /-- The number of tables. -/
  tables : Nat
  /-- The number of symbols. -/
  alphabet : Nat
  /-- The table of each group. -/
  selectors : Array Nat
  /-- The tables in the order of their last use. -/
  recents : MoveToFront
  /-- The code length of each symbol, by table; 0 if it is not known yet. -/
  lengths : Array (Array Nat)
deriving Repr, DecidableEq, Inhabited

namespace Setup

/-- Nothing is known but the sizes. -/
def start (tables alphabet : Nat) : Setup :=
  { tables, alphabet
    selectors := #[]
    recents := MoveToFront.ofSize tables
    lengths := Array.replicate Format.maxTables (Array.replicate Format.maxAlphabet 0) }

/-- The room that a table takes: its shortest length, a word for each length of a search as offset
and as limit, with three words to spare, and half a word for each symbol. -/
def tableBytes : Nat := 8 + 4 * (2 * Format.maxSearch + 3) + 2 * Format.maxAlphabet

/-- Makes room for a number of selectors, each naming the first table. -/
def setSelectorCount (setup : Setup) (count : Nat) : Setup :=
  { setup with selectors := Array.replicate count 0 }

def reserve (tables alphabet count : Nat) : Except Fault Setup := do
  checkCapacity (tableBytes * tables)
  checkCapacity count
  return (start tables alphabet).setSelectorCount count

/-- Stores a selector given as a position in the list of recent tables. -/
def setSelector (setup : Setup) (index position : Nat) : Except Fault Setup :=
  match setup with
  | ⟨tables, alphabet, selectors, recents, lengths⟩ =>
    if tables ≤ position then .error (.stream (.invalidSelector position tables))
    else
      match recents.take? position with
      | none => .error (.defect .noSelectorSlot)
      | some (table, recents) =>
        if index < selectors.size then
          .ok ⟨tables, alphabet, selectors.setIfInBounds index table.toNat, recents, lengths⟩
        else .error (.defect .noSelectorSlot)

/-- Stores the code length of a symbol, which must be between 1 and 20. -/
def setLength (setup : Setup) (table symbol : Nat) (length : Int32) : Except Fault Setup :=
  match setup with
  | ⟨tables, alphabet, selectors, recents, lengths⟩ =>
    if 1 ≤ length.toInt ∧ length.toInt ≤ Format.maxCodeLength then
      if table < Format.maxTables ∧ symbol < Format.maxAlphabet then
        .ok ⟨tables, alphabet, selectors, recents,
          lengths.modify table (·.setIfInBounds symbol length.toInt.toNat)⟩
      else .error (.defect .noLengthSlot)
    else .error (.stream (.invalidCodeLength length))

def tableLengths (setup : Setup) (table : Nat) : List Nat :=
  (setup.lengths.getD table #[]).toList.take setup.alphabet

/-- The decoder of the first symbol. A table has no room for more than the largest alphabet. -/
def decoder (setup : Setup) : Except Fault Decoder :=
  if setup.tables ≤ Format.maxTables ∧
      (setup.tables = 0 ∨ setup.alphabet ≤ Format.maxAlphabet) then
    .ok {
      tables := ((List.range setup.tables).map fun table =>
        Table.ofLengths (setup.tableLengths table)).toArray
      selectors := setup.selectors
      position := 0 }
  else .error (.defect .noTableRoom)

def undecided (setup : Setup) : Decoder := ⟨#[], setup.selectors, 0⟩

end Setup

end Bunzip.Huffman
