import Bunzip.Bits

/-!
# The two checksums of a stream

A block carries the CRC of its data: polynomial `x^32 + … + x^2 + x + 1` (`0x04c11db7`), most
significant bit first, register initially all ones, result complemented. `Crc` keeps the register
and takes in a byte per step through a table. A stream carries the fold of its blocks' CRCs
(`fold`), one rotation and one exclusive or per block.

The main statements are that data may be taken in pieces (`updateAll_append`, `extend_extend`) and
that a run is a list of equal bytes (`updateRepeated_eq`).
-/

namespace Bunzip

/-- The register of a running CRC. -/
structure Crc where
  register : UInt32
deriving Repr, DecidableEq, Inhabited

namespace Crc

/-- The generator polynomial without its leading term. -/
def polynomial : UInt32 := 0x04c11db7

/-- Shifts the register by one place, reducing by the polynomial if a one falls out. -/
def shift (register : UInt32) : UInt32 :=
  if register &&& 0x80000000 ≠ 0 then (register <<< 1) ^^^ polynomial else register <<< 1

/-- The register after `n` shifts. -/
def shifts : Nat → UInt32 → UInt32
  | 0, register => register
  | n + 1, register => shifts n (shift register)

/-- What eight shifts make of each value of the register's top byte. -/
def table : Vector UInt32 256 :=
  Vector.ofFn fun i => shifts 8 (i.val.toUInt32 <<< 24)

def start : Crc := ⟨0xffffffff⟩

@[inline] def update (crc : Crc) (byte : UInt8) : Crc :=
  let top := (crc.register >>> 24).toUInt8 ^^^ byte
  ⟨(crc.register <<< 8) ^^^ table.get ⟨top.toNat, top.toNat_lt⟩⟩

def updateRepeated (crc : Crc) (byte : UInt8) : Nat → Crc
  | 0 => crc
  | count + 1 => (crc.update byte).updateRepeated byte count

def updateAll (crc : Crc) (bytes : List UInt8) : Crc :=
  bytes.foldl update crc

/-- The checksum of everything taken in. -/
def value (crc : Crc) : UInt32 := ~~~crc.register

/-- The register that stands at a given checksum. -/
def resume (checksum : UInt32) : Crc := ⟨~~~checksum⟩

/-- Continues the checksum `checksum` over more data; from 0 it is the checksum of the data. -/
def extend (checksum : UInt32) (bytes : List UInt8) : UInt32 :=
  ((resume checksum).updateAll bytes).value

def ofBytes (bytes : List UInt8) : UInt32 := extend 0 bytes

/-- Adds a block's checksum to the stream's: rotate left by one, then exclusive or. -/
def fold (stream block : UInt32) : UInt32 :=
  ((stream <<< 1) ||| (stream >>> 31)) ^^^ block

/-- The checksum of a stream whose blocks have the checksums `blocks`. -/
def foldAll (blocks : List UInt32) : UInt32 := blocks.foldl fold 0

/-! ## Data in pieces -/

@[simp] theorem updateAll_nil (crc : Crc) : crc.updateAll [] = crc := rfl

@[simp] theorem updateAll_cons (crc : Crc) (byte : UInt8) (rest : List UInt8) :
    crc.updateAll (byte :: rest) = (crc.update byte).updateAll rest := rfl

theorem updateAll_append (crc : Crc) (front back : List UInt8) :
    crc.updateAll (front ++ back) = (crc.updateAll front).updateAll back := by
  simp [updateAll]

theorem updateRepeated_eq (crc : Crc) (byte : UInt8) (count : Nat) :
    crc.updateRepeated byte count = crc.updateAll (List.replicate count byte) := by
  induction count generalizing crc with
  | zero => rfl
  | succ count ih => rw [updateRepeated, ih, List.replicate_succ, updateAll_cons]

@[simp] theorem resume_value (crc : Crc) : resume crc.value = crc := by
  cases crc; simp [resume, value]

@[simp] theorem resume_zero : resume 0 = start := by decide

theorem extend_extend (checksum : UInt32) (front back : List UInt8) :
    extend (extend checksum front) back = extend checksum (front ++ back) := by
  simp [extend, updateAll_append]

theorem value_updateAll_start (bytes : List UInt8) :
    (start.updateAll bytes).value = ofBytes bytes := by
  simp [ofBytes, extend]

end Crc

end Bunzip
