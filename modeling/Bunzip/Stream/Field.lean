import Bunzip.Block.Payload
import Bunzip.Huffman.Setup
import Bunzip.UsedMap

/-!
# The fields of a stream

A stream is a header and then block after block; a block is a sequence of fields and its payload.
A `Field` is the next thing to read, with what was learned before and is still of use. `need` is the
number of bits that must be there before a field is read, so that no field is read in part. The two
long lists of a block, selectors and code lengths, are read entry by entry and bit by bit.

`read` gives the field that follows and always takes at least one bit (`spends_read`).
-/

namespace Bunzip.Stream

/-- A block before its payload: what stands before the tables, the bytes it uses, and the tables as
far as they are known. -/
structure Draft where
  head : Block.Head
  used : List UInt8
  setup : Huffman.Setup
deriving Repr, DecidableEq, Inhabited

/-- A code length that is being read. -/
structure Running where
  length : Int32
  /-- The symbol it is for. -/
  symbol : Nat
  /-- Whether the next bit tells in which direction the length changes. -/
  altering : Bool
deriving Repr, DecidableEq, Inhabited

/-- A place in the code lengths. -/
structure LengthCursor where
  table : Nat
  /-- The running length; none while the first length of the table is not known. -/
  running : Option Running
deriving Repr, DecidableEq, Inhabited

/-- What comes next in a stream, outside a payload. -/
inductive Field where
  /-- The signature and the digit of the block size. -/
  | streamHeader
  /-- The mark of a block or of the end of the stream, and a checksum. -/
  | blockHeader
  /-- The randomised flag and the start pointer. -/
  | blockParams (stored : UInt32)
  /-- The groups of the used map. -/
  | usedGroups (head : Block.Head)
  /-- The bitmaps of the used map, and the number of tables. -/
  | usedBitmaps (head : Block.Head) (groups : UInt16)
  | selectorCount (draft : Draft)
  /-- The selector with a given index. -/
  | selector (draft : Draft) (index : Nat)
  /-- The next part of the code lengths. -/
  | codeLength (draft : Draft) (cursor : LengthCursor)
deriving Repr, DecidableEq, Inhabited

/-- Where a stream stands. -/
inductive Phase where
  | field (next : Field)
  | payload (payload : Block.Payload)
  /-- The stream ended, or a fault ended it. -/
  | ended
  | closed
deriving Repr, DecidableEq, Inhabited

/-- A place in a stream. -/
structure State where
  phase : Phase
  /-- The most bytes that a block may have; 0 before the header. -/
  blockSize : Nat
  /-- The fold of the checksums of the blocks so far. -/
  streamCrc : UInt32
deriving Repr, DecidableEq, Inhabited

def State.start : State := ⟨.field .streamHeader, 0, 0⟩

namespace Field

/-- The number of bits that must be there before the field is read. -/
def need : Field → Nat
  | .streamHeader => 32
  | .blockHeader => 80
  | .blockParams _ => 25
  | .usedGroups _ => 16
  | .usedBitmaps _ groups => 16 * (UsedMap.flagged groups).length + 3
  | .selectorCount _ => 15
  | .selector _ _ => 6
  | .codeLength _ cursor => if cursor.running.isNone then 5 else 1

/-! ## Reading -/

/-- Words of 16 bits. -/
def words : Nat → Scan (List UInt16)
  | 0 => pure []
  | count + 1 => do
    let word ← Scan.number 16
    let rest ← words count
    return UInt16.ofNat word :: rest

/-- A number written as that many ones before a zero. It must be below `tables`; `room` ones are
still admissible. -/
def unary (tables : Nat) : (room : Nat) → Scan Nat
  | 0 => Scan.fail (.invalidSelector tables tables)
  | room + 1 => do
    if ← Scan.bit then unary tables room else return tables - (room + 1)

def readStreamHeader : Scan State := do
  if (← Scan.number 24) ≠ Format.signature then Scan.fail .badSignature else
  let digit ← Scan.number 8
  if digit < 0x31 ∨ 0x39 < digit then Scan.fail (.invalidBlockSize (UInt8.ofNat digit)) else
  return ⟨.field .blockHeader, (digit - 0x30) * Format.blockUnit, 0⟩

/-- The end of the stream is accepted if it carries the checksum of its blocks. -/
def readBlockHeader (streamCrc : UInt32) : Scan Phase := do
  let mark ← Scan.number 48
  if mark = Format.endMark then
    let stored ← Scan.checksum
    if stored ≠ streamCrc then Scan.fail (.streamCrcMismatch stored streamCrc) else
    return .ended
  else if mark = Format.blockMark then
    let stored ← Scan.checksum
    return .field (.blockParams stored)
  else Scan.fail .badBlockHeader

def readBlockParams (stored : UInt32) : Scan Phase := do
  let randomised ← Scan.bit
  let pointer ← Scan.number 24
  return .field (.usedGroups ⟨stored, randomised, pointer⟩)

def readUsedGroups (head : Block.Head) : Scan Phase := do
  return .field (.usedBitmaps head (UInt16.ofNat (← Scan.number 16)))

def readUsedBitmaps (head : Block.Head) (groups : UInt16) : Scan Phase := do
  let bitmaps ← words (UsedMap.flagged groups).length
  let used := UsedMap.decode groups bitmaps
  let alphabet := used.length + 2
  let tables ← Scan.number 3
  if tables < Format.minTables ∨ Format.maxTables < tables then
    Scan.fail (.invalidTableCount tables)
  else if alphabet < Format.minAlphabet ∨ Format.maxAlphabet < alphabet then
    Scan.fail (.invalidAlphabetSize alphabet)
  else return .field (.selectorCount ⟨head, used, Huffman.Setup.start tables alphabet⟩)

def readSelectorCount (draft : Draft) : Scan Phase := do
  let count ← Scan.number 15
  if count < 1 ∨ Format.maxSelectors < count then Scan.fail (.invalidSelectorCount count) else
  return .field (.selector { draft with setup := draft.setup.setSelectorCount count } 0)

def readSelector (draft : Draft) (index : Nat) : Scan Phase :=
  match draft with
  | ⟨head, used, setup⟩ => do
    let position ← unary setup.tables setup.tables
    let setup ← Scan.ofExcept (setup.setSelector index position)
    if index + 1 < setup.selectors.size then
      return .field (.selector ⟨head, used, setup⟩ (index + 1))
    else return .field (.codeLength ⟨head, used, setup⟩ ⟨0, none⟩)

/-- What follows a stored code length: the next symbol, the next table, or the payload. -/
def afterLength (blockSize : Nat) (draft : Draft) (table symbol : Nat) (length : Int32) :
    Except Fault Phase := do
  if symbol + 1 < draft.setup.alphabet then
    return .field (.codeLength draft ⟨table, some ⟨length, symbol + 1, false⟩⟩)
  else if table + 1 < draft.setup.tables then
    return .field (.codeLength draft ⟨table + 1, none⟩)
  else
    return .payload (Block.Payload.start blockSize draft.head draft.used (← draft.setup.decoder))

/-- Stores a code length. -/
def storeLength (blockSize : Nat) (draft : Draft) (table symbol : Nat) (length : Int32) :
    Except Fault Phase :=
  match draft with
  | ⟨head, used, setup⟩ => do
    let setup ← setup.setLength table symbol length
    afterLength blockSize ⟨head, used, setup⟩ table symbol length

/-- A zero stores the running length; a one and the bit after it change the length by one. -/
def readCodeLength (blockSize : Nat) (draft : Draft) (cursor : LengthCursor) : Scan Phase := do
  match cursor.running with
  | none =>
    let length ← Scan.number 5
    return .field (.codeLength draft ⟨cursor.table, some ⟨Int32.ofNat length, 0, false⟩⟩)
  | some ⟨length, symbol, true⟩ =>
    let down ← Scan.bit
    let length := if down then length - 1 else length + 1
    return .field (.codeLength draft ⟨cursor.table, some ⟨length, symbol, false⟩⟩)
  | some ⟨length, symbol, false⟩ =>
    if ← Scan.bit then
      return .field (.codeLength draft ⟨cursor.table, some ⟨length, symbol, true⟩⟩)
    else Scan.ofExcept (storeLength blockSize draft cursor.table symbol length)

/-- Reads a field of a stream with a given block size and checksum so far. -/
def read (blockSize : Nat) (streamCrc : UInt32) : Field → Scan State
  | .streamHeader => readStreamHeader
  | .blockHeader => return ⟨← readBlockHeader streamCrc, blockSize, streamCrc⟩
  | .blockParams stored => return ⟨← readBlockParams stored, blockSize, streamCrc⟩
  | .usedGroups head => return ⟨← readUsedGroups head, blockSize, streamCrc⟩
  | .usedBitmaps head groups => return ⟨← readUsedBitmaps head groups, blockSize, streamCrc⟩
  | .selectorCount draft => return ⟨← readSelectorCount draft, blockSize, streamCrc⟩
  | .selector draft index => return ⟨← readSelector draft index, blockSize, streamCrc⟩
  | .codeLength draft cursor =>
    return ⟨← readCodeLength blockSize draft cursor, blockSize, streamCrc⟩

/-! ## Progress -/

theorem spends_words (count : Nat) : Scan.Spends 0 (words count) := by
  induction count with
  | zero => exact Scan.spends_pure _
  | succ count ih =>
    exact ((Scan.spends_number 16).first fun _ => ih.first fun _ => Scan.spends_pure _).free

theorem spends_unary (tables room : Nat) : Scan.Spends 1 (unary tables room) := by
  induction room with
  | zero => exact Scan.spends_fail _ _
  | succ room ih =>
    exact Scan.spends_bit.first fun _ => Scan.spends_ite ih.free (Scan.spends_pure _)

theorem spends_readStreamHeader : Scan.Spends 24 readStreamHeader := by
  refine (Scan.spends_number 24).first fun _ => Scan.spends_ite (Scan.spends_fail _ _) ?_
  refine Scan.Spends.free ((Scan.spends_number 8).first fun _ => ?_)
  exact Scan.spends_ite (Scan.spends_fail _ _) (Scan.spends_pure _)

theorem spends_readBlockHeader (streamCrc : UInt32) :
    Scan.Spends 48 (readBlockHeader streamCrc) := by
  refine (Scan.spends_number 48).first fun _ => Scan.spends_ite ?_ (Scan.spends_ite ?_ ?_)
  · exact Scan.Spends.free (Scan.spends_checksum.first fun _ =>
      Scan.spends_ite (Scan.spends_fail _ _) (Scan.spends_pure _))
  · exact Scan.Spends.free (Scan.spends_checksum.first fun _ => Scan.spends_pure _)
  · exact Scan.spends_fail _ _

theorem spends_readBlockParams (stored : UInt32) : Scan.Spends 1 (readBlockParams stored) :=
  Scan.spends_bit.first fun _ =>
    Scan.Spends.free ((Scan.spends_number 24).first fun _ => Scan.spends_pure _)

theorem spends_readUsedGroups (head : Block.Head) : Scan.Spends 16 (readUsedGroups head) :=
  (Scan.spends_number 16).first fun _ => Scan.spends_pure _

theorem spends_readUsedBitmaps (head : Block.Head) (groups : UInt16) :
    Scan.Spends 3 (readUsedBitmaps head groups) := by
  refine ((spends_words _).bind fun _ => (Scan.spends_number 3).first fun _ => ?_).weaken
    (Nat.le_add_left 3 0)
  exact Scan.spends_ite (Scan.spends_fail _ _)
    (Scan.spends_ite (Scan.spends_fail _ _) (Scan.spends_pure _))

theorem spends_readSelectorCount (draft : Draft) : Scan.Spends 15 (readSelectorCount draft) :=
  (Scan.spends_number 15).first fun _ =>
    Scan.spends_ite (Scan.spends_fail _ _) (Scan.spends_pure _)

theorem spends_readSelector (draft : Draft) (index : Nat) :
    Scan.Spends 1 (readSelector draft index) :=
  (spends_unary _ _).first fun _ => (Scan.spends_ofExcept _).first fun _ =>
    Scan.spends_ite (Scan.spends_pure _) (Scan.spends_pure _)

theorem spends_readCodeLength (blockSize : Nat) (draft : Draft) (cursor : LengthCursor) :
    Scan.Spends 1 (readCodeLength blockSize draft cursor) := by
  unfold readCodeLength
  split
  · exact ((Scan.spends_number 5).first fun _ => Scan.spends_pure _).weaken (by omega)
  · exact Scan.spends_bit.first fun _ => Scan.spends_pure _
  · exact Scan.spends_bit.first fun _ =>
      Scan.spends_ite (Scan.spends_pure _) (Scan.spends_ofExcept _)

/-- A field has at least one bit. -/
theorem spends_read (blockSize : Nat) (streamCrc : UInt32) (field : Field) :
    Scan.Spends 1 (field.read blockSize streamCrc) := by
  have wrap {n : Nat} {scan : Scan Phase} (h : Scan.Spends n scan) (hn : 1 ≤ n) :
      Scan.Spends 1 (do return ⟨← scan, blockSize, streamCrc⟩ : Scan State) :=
    (h.first fun _ => Scan.spends_pure _).weaken hn
  cases field with
  | streamHeader => exact spends_readStreamHeader.weaken (by omega)
  | blockHeader => exact wrap (spends_readBlockHeader _) (by omega)
  | blockParams => exact wrap (spends_readBlockParams _) (by omega)
  | usedGroups => exact wrap (spends_readUsedGroups _) (by omega)
  | usedBitmaps => exact wrap (spends_readUsedBitmaps _ _) (by omega)
  | selectorCount => exact wrap (spends_readSelectorCount _) (by omega)
  | selector => exact wrap (spends_readSelector _ _) (by omega)
  | codeLength => exact wrap (spends_readCodeLength _ _ _) (by omega)

end Field

end Bunzip.Stream
