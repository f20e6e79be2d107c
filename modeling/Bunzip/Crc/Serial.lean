import Bunzip.Crc

/-!
# The CRC one bit at a time

The definition of the checksum by its shift register: each bit of the data is added to the bit that
falls out at the top, and a one subtracts the polynomial. `Crc` does eight of these steps at once.
-/

namespace Bunzip.Crc.Serial

/-- The register after one bit of data. -/
def step (register : UInt32) (bit : Bool) : UInt32 :=
  let out := decide (register &&& 0x80000000 ≠ 0)
  if out ^^ bit then (register <<< 1) ^^^ polynomial else register <<< 1

def run (register : UInt32) (bits : List Bool) : UInt32 :=
  bits.foldl step register

/-- The checksum of a byte sequence: all ones to begin with, complemented in the end. -/
def ofBytes (bytes : List UInt8) : UInt32 :=
  ~~~run 0xffffffff (Bits.ofBytes bytes)

@[simp] theorem run_nil (register : UInt32) : run register [] = register := rfl

theorem run_append (register : UInt32) (front back : List Bool) :
    run register (front ++ back) = run (run register front) back := by
  simp [run]

end Bunzip.Crc.Serial
