import Bunzip.Fault
import Bunzip.MoveToFront

/-!
# Expansion of symbols

The symbols of a block name positions in the list of its recent bytes. Position 0 is never written
as such: copies of the most recent byte are counted in base two with the digits 1 and 2, lowest
digit first, by the symbols `runA` and `runB`. An `Expansion` keeps the count of the run that is
being read and the bytes that came before it. A block that outgrows its limit is refused as soon as
a run would cross it.
-/

namespace Bunzip.Block

/-- What a symbol of a block says. -/
inductive Token where
  /-- The digit 1 of a run. -/
  | runA
  /-- The digit 2 of a run. -/
  | runB
  /-- The byte at a position of the recent bytes. -/
  | recent (position : Nat)
  /-- The end of the block. -/
  | finish
deriving Repr, DecidableEq, Inhabited

/-- What a symbol says in a block that uses a number of bytes. -/
def Token.ofSymbol (used : Nat) : Nat → Token
  | 0 => .runA
  | 1 => .runB
  | symbol + 2 => if symbol + 1 = used then .finish else .recent (symbol + 1)

/-- The expansion of the symbols read so far. -/
structure Expansion where
  /-- The most bytes that the block may have. -/
  limit : Nat
  /-- The bytes that the block uses. -/
  used : Array UInt8
  /-- Places of `used` in the order of their last use. -/
  recents : MoveToFront
  /-- The place of the byte used last. -/
  current : Nat
  /-- Copies counted by the run that is being read. -/
  run : Nat
  /-- What the digit 1 counts next. -/
  weight : Nat
  /-- How often each byte occurs. -/
  counts : Array Nat
  bytes : Array UInt8
deriving Repr, DecidableEq, Inhabited

/-- Appends copies of a byte. -/
def pushCopies (bytes : Array UInt8) (byte : UInt8) : Nat → Array UInt8
  | 0 => bytes
  | count + 1 => pushCopies (bytes.push byte) byte count

namespace Expansion

/-- Nothing was read. -/
def start (limit : Nat) (used : List UInt8) : Expansion :=
  { limit
    used := used.toArray
    recents := MoveToFront.ofSize 256
    current := 0
    run := 0
    weight := 1
    counts := Array.replicate 256 0
    bytes := #[] }

/-- The outcome of a step; the expansion is known also after a fault. -/
abbrev Outcome (α : Type) := EStateM.Result Fault Expansion α

/-- Adds copies to the run that is being read. -/
def count (e : Expansion) (copies : Nat) : Outcome Bool :=
  match e with
  | ⟨limit, used, recents, current, run, weight, counts, bytes⟩ =>
    let size := bytes.size
    let e := ⟨limit, used, recents, current, run + copies, 2 * weight, counts, bytes⟩
    if limit < size + (run + copies) then .error (.stream .blockOverflow) e else .ok false e

/-- Appends the copies that the run has counted. -/
def flush (e : Expansion) : Outcome Unit :=
  match e with
  | ⟨limit, used, recents, current, run, weight, counts, bytes⟩ =>
    if run = 0 then .ok () ⟨limit, used, recents, current, run, weight, counts, bytes⟩
    else
      match used[current]? with
      | none =>
        .error (.defect .noRunByte) ⟨limit, used, recents, current, run, weight, counts, bytes⟩
      | some byte =>
        .ok () ⟨limit, used, recents, current, 0, 1, counts.modify byte.toNat (· + run),
          pushCopies bytes byte run⟩

/-- Appends the byte at a position of the recent bytes. -/
def append (e : Expansion) (position : Nat) : Outcome Bool :=
  match e with
  | ⟨limit, used, recents, current, run, weight, counts, bytes⟩ =>
    if limit < bytes.size + 1 then
      .error (.stream .blockOverflow) ⟨limit, used, recents, current, run, weight, counts, bytes⟩
    else
      match recents.take? position with
      | none => .error (.defect .noRecentByte)
          ⟨limit, used, MoveToFront.ofSize 256, current, run, weight, counts, bytes⟩
      | some (place, recents) =>
        match used[place.toNat]? with
        | none => .error (.stream (.invalidCode .noByte))
            ⟨limit, used, recents, place.toNat, run, weight, counts, bytes⟩
        | some byte => .ok false ⟨limit, used, recents, place.toNat, run, weight,
            counts.modify byte.toNat (· + 1), bytes.push byte⟩

/-- Takes in a token, and tells whether it was the end of the block. -/
def accept (e : Expansion) (token : Token) : Outcome Bool :=
  match token with
  | .runA => let copies := e.weight; e.count copies
  | .runB => let copies := 2 * e.weight; e.count copies
  | .recent position =>
    match e.flush with
    | .error fault e => .error fault e
    | .ok () e => e.append position
  | .finish =>
    match e.flush with
    | .error fault e => .error fault e
    | .ok () e => .ok true e

def size (e : Expansion) : Nat := e.bytes.size

theorem toList_pushCopies (bytes : Array UInt8) (byte : UInt8) (count : Nat) :
    (pushCopies bytes byte count).toList = bytes.toList ++ List.replicate count byte := by
  induction count generalizing bytes with
  | zero => simp [pushCopies]
  | succ count ih => rw [pushCopies, ih, List.replicate_succ]; simp

end Expansion

end Bunzip.Block
