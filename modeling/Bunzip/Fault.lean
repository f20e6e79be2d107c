/-!
# Faults

What can go wrong while a stream is decoded. A `StreamError` lies in the data, a `UsageError` in the
order of calls. A `Defect` is a promise that was not kept, by another part of the program or by a
caller: the parts check what they rely on, and a defect tells which check failed.
-/

namespace Bunzip

/-- Why a code word has no symbol. -/
inductive CodeFailure where
  /-- No code word of the table begins the bits. -/
  | unassigned
  /-- The selector names a table that was not built. -/
  | noTable
  /-- The code word has a rank that no symbol has. -/
  | noSymbol
  /-- The symbol stands for a byte that the block does not use. -/
  | noByte
deriving Repr, DecidableEq, Inhabited

/-- Errors in the data of a stream. -/
inductive StreamError where
  /-- The first three bytes are not the signature. -/
  | badSignature
  /-- The fourth byte is not one of the digits 1 to 9. -/
  | invalidBlockSize (found : UInt8)
  /-- Neither a block nor the end of the stream follows. -/
  | badBlockHeader
  | streamCrcMismatch (stored computed : UInt32)
  | blockCrcMismatch (stored computed : UInt32)
  | invalidTableCount (count : Nat)
  | invalidAlphabetSize (size : Nat)
  | invalidSelectorCount (count : Nat)
  /-- A selector counts past the last table. -/
  | invalidSelector (index tables : Nat)
  /-- A code length is not between 1 and 20. -/
  | invalidCodeLength (length : Int32)
  /-- More groups of symbols than selectors. -/
  | selectorsExhausted
  | invalidCode (why : CodeFailure)
  /-- The block expands to more bytes than the stream allows. -/
  | blockOverflow
  | invalidStartPointer (pointer length : Nat)
deriving Repr, DecidableEq, Inhabited

/-- Calls that do not fit the state of a decompressor. -/
inductive UsageError where
  | closed
  | alreadyClosed
deriving Repr, DecidableEq, Inhabited

/-- Promises that were not kept. -/
inductive Defect where
  /-- More bits were asked for than there are. -/
  | shortRead
  /-- A selector was stored past the end of the selector list. -/
  | noSelectorSlot
  /-- A code length was stored for a table or symbol that cannot exist. -/
  | noLengthSlot
  /-- Tables were asked for beyond the limits of the format. -/
  | noTableRoom
  /-- A run of a byte that the block does not use. -/
  | noRunByte
  /-- A position past the end of the recent bytes. -/
  | noRecentByte
  /-- A byte was sorted past the end of the block. -/
  | noSortedPlace
  /-- A link points outside the block. -/
  | strayLink
  /-- A buffer was asked for that is larger than any can be. -/
  | noCapacity
deriving Repr, DecidableEq, Inhabited

/-- Everything that can stop the decoder. -/
inductive Fault where
  | stream (error : StreamError)
  | usage (error : UsageError)
  | defect (defect : Defect)
deriving Repr, DecidableEq, Inhabited

instance : Coe StreamError Fault := ⟨.stream⟩
instance : Coe UsageError Fault := ⟨.usage⟩
instance : Coe Defect Fault := ⟨.defect⟩

/-! ## Texts -/

/-- A number in hexadecimal with at least `width` digits, after the mark `0x`. -/
def hexText (width n : Nat) : String :=
  let digits := Nat.toDigits 16 n
  "0x" ++ String.ofList (List.replicate (width - digits.length) '0' ++ digits)

/-- The text of an error in the data. -/
def StreamError.message : StreamError → String
  | .badSignature => "unexpected stream identifier contents, mismatched bzip2 protocol version?"
  | .invalidBlockSize found => "block size is invalid (found byte " ++ hexText 2 found.toNat ++ ")"
  | .badBlockHeader => "bad block header"
  | .streamCrcMismatch stored computed =>
    "stream CRC error (stored " ++ hexText 8 stored.toNat ++ ", computed " ++
      hexText 8 computed.toNat ++ ")"
  | .blockCrcMismatch stored computed =>
    "block CRC error (stored " ++ hexText 8 stored.toNat ++ ", computed " ++
      hexText 8 computed.toNat ++ ")"
  | .invalidTableCount count => "incorrect huffman groups number: " ++ toString count
  | .invalidAlphabetSize size => "incorrect alphabet size: " ++ toString size
  | .invalidSelectorCount count => "incorrect selectors number: " ++ toString count
  | .invalidSelector index tables =>
    "selector index " ++ toString index ++ " out of range for " ++ toString tables ++ " tables"
  | .invalidCodeLength length => "invalid huffman code length: " ++ toString length.toInt
  | .selectorsExhausted => "error decoding block: ran out of selectors"
  | .invalidCode _ => "a valid huffman code was not recognised"
  | .blockOverflow => "block exceeds declared block size"
  | .invalidStartPointer pointer length =>
    "start pointer " ++ toString pointer ++ " invalid for a block of " ++ toString length ++
      " bytes"

def UsageError.message : UsageError → String
  | .closed => "decompressor closed"
  | .alreadyClosed => "decompressor already closed"

def Fault.message : Fault → String
  | .stream error => error.message
  | .usage error => error.message
  | .defect _ => "internal error"

/-- Whether the order of calls is at fault, and not the data. -/
def Fault.isUsage : Fault → Bool
  | .usage _ => true
  | _ => false

end Bunzip
