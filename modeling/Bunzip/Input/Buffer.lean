/-!
# Chunk buffers

A `Buffer` is what a chunk buffer holds for the decoder: bytes that were delivered, or zeros where a
delivery failed. Only the number of zeros is kept until they are needed.
-/

namespace Bunzip.Input

/-- The unused part of a chunk buffer. -/
inductive Buffer where
  /-- Bytes that were delivered. -/
  | delivered (bytes : List UInt8)
  /-- As many zeros. -/
  | blank (count : Nat)
deriving Repr, DecidableEq, Inhabited

namespace Buffer

def toList : Buffer → List UInt8
  | .delivered bytes => bytes
  | .blank count => List.replicate count 0

def isEmpty : Buffer → Bool
  | .delivered bytes => bytes.isEmpty
  | .blank count => count == 0

@[simp] theorem toList_delivered (bytes : List UInt8) : (delivered bytes).toList = bytes := rfl

@[simp] theorem toList_blank (count : Nat) : (blank count).toList = List.replicate count 0 := rfl

theorem isEmpty_iff {buffer : Buffer} : buffer.isEmpty = true ↔ buffer.toList = [] := by
  cases buffer <;> simp [isEmpty]

end Buffer

end Bunzip.Input
