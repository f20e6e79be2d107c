import Bunzip.Block.Rotations
import Bunzip.Block.RunLength
import Bunzip.Block.Tokens
import Bunzip.Crc
import Bunzip.Huffman.Canonical
import Bunzip.Format
import Bunzip.Randomiser
import Bunzip.UsedMap

/-!
# Streams as texts

A stream as it is written: a `StreamText` lists what its fields say, `bits` writes the fields down,
and `Valid` states the rules of the format. What the text means is said by the definitions on
sequences: the tokens of a block, its sorted rotations and its runs give `BlockText.data`.
-/

namespace Bunzip.Stream

open Huffman Block

/-- The code lengths of a table as they are written: the first length, and for each symbol the steps
from the length before it, where `true` is a step down. -/
structure LengthText where
  start : Nat
  steps : List (List Bool)
deriving Repr, DecidableEq, Inhabited

namespace LengthText

/-- The lengths after the steps of each symbol. -/
def running : Int → List (List Bool) → List Int
  | _, [] => []
  | length, steps :: rest =>
    let length := steps.foldl (fun length down => if down then length - 1 else length + 1) length
    length :: running length rest

def lengths (t : LengthText) : List Int := running t.start t.steps

/-- A step is a one and its direction; a zero ends the steps of a symbol. -/
def stepBits (steps : List Bool) : List Bool :=
  (steps.flatMap fun down => [true, down]) ++ [false]

/-- The first length has five bits. -/
def bits (t : LengthText) : List Bool :=
  Bits.ofNat 5 t.start ++ t.steps.flatMap stepBits

end LengthText

/-- A block as it is written. -/
structure BlockText where
  /-- The checksum of the data. -/
  stored : UInt32
  randomised : Bool
  /-- The row of the sorted rotations. -/
  pointer : Nat
  /-- The group word of the used map. -/
  groups : UInt16
  bitmaps : List UInt16
  /-- The selectors, as positions among the recent tables. -/
  positions : List Nat
  tables : List LengthText
  /-- The symbols of the payload. -/
  symbols : List Nat
deriving Repr, DecidableEq, Inhabited

/-- The masks of a randomised block laid over a byte sequence. -/
def masked (randomised : Bool) (bytes : List UInt8) : List UInt8 :=
  if randomised then
    List.zipWith (· ^^^ ·) bytes (Randomiser.start.masks bytes.length).1
  else bytes

namespace BlockText

def used (b : BlockText) : List UInt8 := UsedMap.decode b.groups b.bitmaps

def alphabet (b : BlockText) : Nat := b.used.length + 2

/-- The table of each group. -/
def selectors (b : BlockText) : List Nat :=
  (MoveToFront.decode ((List.range b.tables.length).map UInt8.ofNat) b.positions).map UInt8.toNat

/-- The code lengths of the table that serves a symbol of the payload. -/
def lengthsAt (b : BlockText) (index : Nat) : List Nat :=
  let table := b.selectors.getD (index / Format.groupSize) 0
  ((b.tables.getD table ⟨0, []⟩).lengths).map Int.toNat

/-- The column of the sorted rotations. -/
def column (b : BlockText) : List UInt8 :=
  Token.expand b.used (b.symbols.map (Token.ofSymbol b.used.length))

/-- The data of the block. -/
def data (b : BlockText) : List UInt8 :=
  RunLength.decode none 0 (masked b.randomised (Rotations.unsort b.column b.pointer))

/-- The code words of the symbols, each from the table of its group. -/
def payloadBits (b : BlockText) : List Bool :=
  b.symbols.zipIdx.flatMap fun (symbol, index) =>
    (Canonical.codeWord? (b.lengthsAt index) symbol).getD []

/-- The fields of the block. -/
def bits (b : BlockText) : List Bool :=
  Bits.ofNat 48 Format.blockMark ++ Bits.ofNat 32 b.stored.toNat ++ [b.randomised] ++
    Bits.ofNat 24 b.pointer ++ Bits.ofNat 16 b.groups.toNat ++
    (b.bitmaps.flatMap fun bitmap => Bits.ofNat 16 bitmap.toNat) ++
    Bits.ofNat 3 b.tables.length ++ Bits.ofNat 15 b.positions.length ++
    (b.positions.flatMap fun position => List.replicate position true ++ [false]) ++
    b.tables.flatMap LengthText.bits ++ b.payloadBits

/-- The rules for a code table: a length for each symbol, and each between 1 and 20. -/
structure ValidTable (alphabet : Nat) (t : LengthText) : Prop where
  start_lt : t.start < 32
  length_steps : t.steps.length = alphabet
  /-- There are fewer than `2 ^ 30` steps. -/
  steps_lt : t.steps.flatten.length < 2 ^ 30
  lengths_mem : ∀ length ∈ t.lengths, 1 ≤ length ∧ length ≤ Format.maxCodeLength

/-- The rules of the format for a block of a given size. -/
structure Valid (blockSize : Nat) (b : BlockText) : Prop where
  length_bitmaps : b.bitmaps.length = (UsedMap.flagged b.groups).length
  used_ne_nil : b.used ≠ []
  tables_ge : Format.minTables ≤ b.tables.length
  tables_le : b.tables.length ≤ Format.maxTables
  selectors_ge : 1 ≤ b.positions.length
  selectors_le : b.positions.length ≤ Format.maxSelectors
  positions_lt : ∀ position ∈ b.positions, position < b.tables.length
  tables_valid : ∀ t ∈ b.tables, ValidTable b.alphabet t
  /-- The end symbol comes last, and only there. -/
  ends : ∃ front, b.symbols = front ++ [b.used.length + 1] ∧ b.used.length + 1 ∉ front
  /-- There is a selector for each group. -/
  selectors_suffice : b.symbols.length ≤ Format.groupSize * b.positions.length
  /-- The code word of each symbol begins with no shorter code word of its table. -/
  resolves : ∀ symbol index, (symbol, index) ∈ b.symbols.zipIdx →
    ∃ word, Canonical.codeWord? (b.lengthsAt index) symbol = some word ∧
      Canonical.Begins (b.lengthsAt index) word symbol
  column_le : b.column.length ≤ blockSize
  pointer_lt_column : b.pointer < b.column.length
  stored_eq : b.stored = Crc.ofBytes b.data

end BlockText

/-- A stream as it is written. -/
structure StreamText where
  /-- The digit of the block size. -/
  digit : Nat
  blocks : List BlockText
deriving Repr, DecidableEq, Inhabited

namespace StreamText

def checksum (t : StreamText) : UInt32 := Crc.foldAll (t.blocks.map (·.stored))

def blockSize (t : StreamText) : Nat := t.digit * Format.blockUnit

/-- The header, the blocks, and the mark of the end with the checksum. -/
def bits (t : StreamText) : List Bool :=
  Bits.ofNat 24 Format.signature ++ Bits.ofNat 8 (0x30 + t.digit) ++
    t.blocks.flatMap BlockText.bits ++ Bits.ofNat 48 Format.endMark ++
    Bits.ofNat 32 t.checksum.toNat

/-- The stream in bytes; the last one is filled with zeros. -/
def bytes (t : StreamText) : List UInt8 := Bits.pack t.bits

/-- The rules of the format. -/
structure Valid (t : StreamText) : Prop where
  digit_ge : 1 ≤ t.digit
  digit_le : t.digit ≤ 9
  blocks_valid : ∀ b ∈ t.blocks, b.Valid t.blockSize

end StreamText

end Bunzip.Stream
