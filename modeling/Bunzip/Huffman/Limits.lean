import Bunzip.Huffman.Table

/-!
# Code tables in cells

A `Table` counts the code lengths anew for each row. A `LimitTable` is set up in cells: the symbols
are counted by length, each in the cell behind its length, and the counts are added up, so that a
cell has the number of symbols with shorter code words. Then the cells are gone through once more,
length by length. Each gives way to the base of its length when it has been read for the last time,
and the one behind it is still a number of symbols when it is read for the size of its length.

A setup that would leave its cells has no table.
-/

namespace Bunzip.Huffman

/-- Writes a cell; none if there is no such cell. -/
def write? {α : Type} {n : Nat} (cells : Vector α n) (i : Nat) (value : α) : Option (Vector α n) :=
  if h : i < n then some (cells.set i value) else none

/-- For each length a cell, and one behind the last. -/
abbrev Bases := Vector Int32 (Format.maxSearch + 2)

/-- For each length a cell. -/
abbrev Limits := Vector Int32 (Format.maxSearch + 1)

/-- A code table in cells. -/
structure LimitTable where
  /-- The shortest length. -/
  shortest : Nat
  shortest_le : shortest ≤ Format.maxSearch
  /-- For each length, the first code word less the number of symbols with shorter ones. -/
  bases : Bases
  /-- For each length, the last code word, or -1. -/
  limits : Limits
  /-- The symbols in the order of their code words. -/
  symbols : Vector UInt16 Format.maxAlphabet
deriving Repr, DecidableEq

namespace LimitTable

/-- Counts each length in the cell behind it. -/
def countLengths (bases : Bases) : List Nat → Option Bases
  | [] => some bases
  | length :: lengths => do
    let count ← bases[length + 1]?
    countLengths (← write? bases (length + 1) (count + 1)) lengths

/-- Adds to each of `left` cells from cell `i` on the one before it. -/
def addUp (bases : Bases) : (left i : Nat) → Option Bases
  | 0, _ => some bases
  | left + 1, i => do
    let sum := (← bases[i]?) + (← bases[i - 1]?)
    addUp (← write? bases i sum) left (i + 1)

/-- Lays out the code words of `count` lengths from `length` on, the first of which is `code`. -/
def layOut (bases : Bases) (limits : Limits) :
    (count length : Nat) → (code : Int32) → Option (Bases × Limits)
  | 0, _, _ => some (bases, limits)
  | count + 1, length, code => do
    let next := code + ((← bases[length + 1]?) - (← bases[length]?))
    let bases ← write? bases length (code - (← bases[length]?))
    let limits ← write? limits length (next - 1)
    layOut bases limits count (length + 1) (next <<< 1)

/-- Puts the symbols of a length in a row, from cell `place` on, where `symbol` is the first symbol
of those whose lengths are given. -/
def placeLength (symbols : Vector UInt16 Format.maxAlphabet) (length : Nat) :
    (lengths : List Nat) → (symbol place : Nat) → Option (Vector UInt16 Format.maxAlphabet × Nat)
  | [], _, place => some (symbols, place)
  | l :: lengths, symbol, place =>
    if l = length then do
      let symbols ← write? symbols place (UInt16.ofNat symbol)
      placeLength symbols length lengths (symbol + 1) (place + 1)
    else placeLength symbols length lengths (symbol + 1) place

/-- Puts the symbols of `count` lengths from `length` on in a row. -/
def placeSymbols (symbols : Vector UInt16 Format.maxAlphabet) (lengths : List Nat) :
    (count length place : Nat) → Option (Vector UInt16 Format.maxAlphabet)
  | 0, _, _ => some symbols
  | count + 1, length, place => do
    let (symbols, place) ← placeLength symbols length lengths 0 place
    placeSymbols symbols lengths count (length + 1) place

/-- The table of the code lengths of symbols 0, 1, …. -/
def ofLengths? (lengths : List Nat) : Option LimitTable := do
  let shortest := lengths.min?.getD 1
  let count := lengths.max?.getD 0 + 1 - shortest
  let bases ← countLengths (Vector.replicate _ 0) lengths
  let bases ← addUp bases (Format.maxSearch + 1) 1
  let (bases, limits) ← layOut bases (Vector.replicate _ (-1)) count shortest 0
  let symbols ← placeSymbols (Vector.replicate _ 0) lengths count shortest 0
  if h : shortest ≤ Format.maxSearch then some ⟨shortest, h, bases, limits, symbols⟩ else none

def symbolAt (t : LimitTable) (place : Int32) : Scan Nat :=
  match (if 0 ≤ place then t.symbols[place.toInt.toNat]? else none) with
  | some symbol => pure symbol.toNat
  | none => Scan.fail (.invalidCode .noSymbol)

/-- Compares the code word read so far with the limit of its length, and adds a bit if it lies
above; `left` more bits are left to the longest search. -/
def search (t : LimitTable) (left : Nat) (code : Int32) : Scan Nat :=
  let length := Format.maxSearch - left
  have h : length < Format.maxSearch + 1 := Nat.lt_succ_of_le (Nat.sub_le _ _)
  if code ≤ t.limits.get ⟨length, h⟩ then
    t.symbolAt (code - t.bases.get ⟨length, Nat.lt_succ_of_lt h⟩)
  else
    match left with
    | 0 => Scan.fail (.invalidCode .unassigned)
    | left + 1 => do
      let bit ← Scan.number 1
      t.search left (code <<< 1 ||| Int32.ofNat bit)

/-- The symbol whose code word comes next. -/
def decode (t : LimitTable) : Scan Nat := do
  let word ← Scan.number t.shortest
  t.search (Format.maxSearch - t.shortest) (Int32.ofNat word)

end LimitTable

end Bunzip.Huffman
