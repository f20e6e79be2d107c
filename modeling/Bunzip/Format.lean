/-!
# Numbers of the format

The marks that the fields of a stream begin with, and the limits that they keep.
-/

namespace Bunzip.Format

/-- The first three bytes of a stream, `BZh`. -/
def signature : Nat := 0x425a68

/-- What begins a block: the digits of π. -/
def blockMark : Nat := 0x314159265359

/-- What ends a stream: the digits of the square root of π. -/
def endMark : Nat := 0x177245385090

/-- The block size of digit `d` is `d` times this many bytes. -/
def blockUnit : Nat := 100000

/-- Fewest code tables of a block. -/
def minTables : Nat := 2

/-- Most code tables of a block. -/
def maxTables : Nat := 6

/-- Two run symbols and the end of the block; the first of the recent bytes is named by runs
alone. -/
def minAlphabet : Nat := 3

/-- Two run symbols, the end of the block, and the 255 other positions of recent bytes. -/
def maxAlphabet : Nat := 258

/-- Longest code length that may be stored. -/
def maxCodeLength : Nat := 20

/-- Number of bits after which the search for a code word gives up. -/
def maxSearch : Nat := 23

/-- Symbols that one selector serves. -/
def groupSize : Nat := 50

/-- Most selectors of a block. -/
def maxSelectors : Nat := 2 + 900000 / groupSize

end Bunzip.Format
