import Bunzip.Format
import Bunzip.Scan

/-!
# Code tables

The code words of a table are given by the lengths alone: words of one length are consecutive
numbers, handed to the symbols in increasing order, and the first word of the next length is twice
the number after them. A `Row` keeps this for one length. `decode` reads as many bits as the
shortest word has and then one more at a time until the number lies below the end of its row.
-/

namespace Bunzip.Huffman

/-- The code words of one length. -/
structure Row where
  /-- The first word, as a number. -/
  first : Nat
  /-- One more than the last word. -/
  next : Nat
  /-- How many symbols have shorter words. -/
  shorter : Nat
deriving Repr, DecidableEq, Inhabited

/-- The code words of an alphabet. -/
structure Table where
  /-- The shortest length. -/
  shortest : Nat
  /-- The rows of the shortest length, the next, and so on to the longest. -/
  rows : List Row
  /-- The symbols in the order of their code words. -/
  symbols : Array Nat
deriving Repr, DecidableEq, Inhabited

/-- The symbol of a word of a row. -/
def Row.symbol (row : Row) (symbols : Array Nat) (word : Nat) : Scan Nat :=
  match symbols[row.shorter + (word - row.first)]? with
  | some symbol => pure symbol
  | none => Scan.fail (.invalidCode .noSymbol)

namespace Table

/-- The rows of `count` lengths from `length` on, the first of them beginning with the word `first`
and having `shorter` symbols before it. -/
def rowsFrom (lengths : List Nat) : (count length first shorter : Nat) → List Row
  | 0, _, _, _ => []
  | count + 1, length, first, shorter =>
    let size := lengths.count length
    ⟨first, first + size, shorter⟩ ::
      rowsFrom lengths count (length + 1) (2 * (first + size)) (shorter + size)

/-- The symbols whose code words have a given length, in increasing order. -/
def symbolsOfLength (lengths : List Nat) (length : Nat) : List Nat :=
  lengths.zipIdx.filterMap fun (l, symbol) => if l = length then some symbol else none

/-- The table of the code lengths of symbols 0, 1, …; no symbols have a table of no words. -/
def ofLengths (lengths : List Nat) : Table :=
  let shortest := lengths.min?.getD 1
  let count := lengths.max?.getD 0 + 1 - shortest
  { shortest
    rows := rowsFrom lengths count shortest 0 0
    symbols := ((List.range' shortest count).flatMap (symbolsOfLength lengths)).toArray }

/-- Compares the word read so far with the row of its length, and adds a bit if it lies above; at
most `left` bits are added. -/
def search (symbols : Array Nat) (left word : Nat) (rows : List Row) : Scan Nat :=
  match rows.head?.filter (word < ·.next) with
  | some row => row.symbol symbols word
  | none =>
    match left with
    | 0 => Scan.fail (.invalidCode .unassigned)
    | left + 1 => do
      let bit ← Scan.number 1
      search symbols left (2 * word + bit) rows.tail

def decode (table : Table) : Scan Nat := do
  let word ← Scan.number table.shortest
  search table.symbols (Format.maxSearch - table.shortest) word table.rows

/-! ## What a code word spends -/

theorem spends_search (symbols : Array Nat) (left word : Nat) (rows : List Row) :
    Scan.Spends 0 (search symbols left word rows) := by
  induction left generalizing word rows with
  | zero =>
    unfold search
    split
    · unfold Row.symbol
      split
      · exact Scan.spends_pure _
      · exact Scan.spends_fail _ _
    · exact Scan.spends_fail _ _
  | succ left ih =>
    unfold search
    split
    · unfold Row.symbol
      split
      · exact Scan.spends_pure _
      · exact Scan.spends_fail _ _
    · exact ((Scan.spends_number 1).bind fun bit => ih _ _).weaken (Nat.zero_le _)

theorem spends_decode (table : Table) : Scan.Spends table.shortest table.decode :=
  (Scan.spends_number table.shortest).bind fun word => spends_search _ _ word _

end Table

end Bunzip.Huffman
