import Bunzip.Fault

/-!
# Capacity

A buffer is a stretch of memory, and no stretch is longer than `maxBufferBytes`. Room that is set
aside before it is needed is checked against this limit first.
-/

namespace Bunzip

/-- The most bytes that a buffer can have. -/
def maxBufferBytes : Nat := 2 ^ 63 - 1

/-- Sets aside a buffer of a number of bytes, if it can exist. -/
def checkCapacity (bytes : Nat) : Except Fault Unit :=
  if bytes ≤ maxBufferBytes then .ok () else .error (.defect .noCapacity)

theorem checkCapacity_eq_ok_iff {bytes : Nat} :
    checkCapacity bytes = .ok () ↔ bytes ≤ maxBufferBytes := by
  unfold checkCapacity
  split <;> simp_all

end Bunzip
