import Bunzip.Crc.Serial

/-!
# The checksum by table and by shift register

A shift of the register is linear over exclusive or (`shift_xor`), so data may be added at the top
before the shifts instead of one bit before each (`run_eq_shifts`). A byte then goes through eight
shifts at once: the table has what they make of the top byte, and the other three bytes only move
up (`update_eq`). So `update` is eight steps of `Serial`, and `extend` the checksum by the bit, in
whatever portions the data come (`extends_serial`).
-/

namespace Bunzip.Crc

/-! ## Shifts are linear -/

/-- The bit that falls out of the register with the next shift. -/
def top (register : UInt32) : Bool := register.toBitVec.getLsbD 31

theorem and_top_ne_zero_iff (register : UInt32) :
    register &&& 0x80000000 ≠ 0 ↔ top register = true := by
  have hbit : register.toBitVec &&& 0x80000000#32 =
      if register.toBitVec.getLsbD 31 then 0x80000000#32 else 0#32 :=
    BitVec.and_twoPow register.toBitVec 31
  rw [ne_eq, ← UInt32.toBitVec_inj, UInt32.toBitVec_and]
  show ¬ register.toBitVec &&& 0x80000000#32 = 0#32 ↔ _
  rw [hbit, top]
  split <;> simp_all

@[simp] theorem top_xor (a b : UInt32) : top (a ^^^ b) = (top a ^^ top b) := by
  simp [top]

@[simp] theorem top_shiftRight (a : UInt32) : top (a >>> 1) = false := by
  simp [top]

/-- What a shift subtracts if the bit `out` falls out. -/
def reduction (out : Bool) : UInt32 := if out then polynomial else 0

theorem reduction_xor (a b : Bool) : reduction (a ^^ b) = reduction a ^^^ reduction b := by
  cases a <;> cases b <;> decide

theorem shift_eq (register : UInt32) :
    shift register = (register <<< 1) ^^^ reduction (top register) := by
  unfold shift reduction
  simp only [and_top_ne_zero_iff]
  split
  · rfl
  · rw [UInt32.xor_zero]

theorem shift_xor (a b : UInt32) : shift (a ^^^ b) = shift a ^^^ shift b := by
  rw [shift_eq, shift_eq, shift_eq, top_xor, reduction_xor, UInt32.shiftLeft_xor]
  ac_rfl

theorem shifts_xor (n : Nat) (a b : UInt32) : shifts n (a ^^^ b) = shifts n a ^^^ shifts n b := by
  induction n generalizing a b with
  | zero => rfl
  | succ n ih => rw [shifts, shifts, shifts, shift_xor, ih]

/-! ## Data added before the shifts -/

/-- A bit at the top of the register. -/
def atTop (bit : Bool) : UInt32 := if bit then 0x80000000 else 0

@[simp] theorem top_atTop (bit : Bool) : top (atTop bit) = bit := by cases bit <;> decide

theorem shiftLeft_atTop (bit : Bool) : atTop bit <<< 1 = 0 := by cases bit <;> decide

theorem step_eq (register : UInt32) (bit : Bool) :
    Serial.step register bit = shift (register ^^^ atTop bit) := by
  rw [shift_eq, top_xor, top_atTop, UInt32.shiftLeft_xor, shiftLeft_atTop, UInt32.xor_zero]
  unfold Serial.step reduction
  simp only [and_top_ne_zero_iff, Bool.decide_eq_true]
  split
  · rfl
  · rw [UInt32.xor_zero]

/-- The word that begins with the bits and goes on with zeros. -/
def aligned : List Bool → UInt32
  | [] => 0
  | bit :: rest => atTop bit ^^^ aligned rest >>> 1

theorem getLsbD_aligned {bits : List Bool} {i : Nat} (h : i + bits.length < 32) :
    (aligned bits).toBitVec.getLsbD i = false := by
  induction bits generalizing i with
  | nil => simp [aligned]
  | cons bit rest ih =>
    have hrest := ih (i := i + 1) (by rw [List.length_cons] at h; omega)
    have htop : (atTop bit).toBitVec.getLsbD i = false := by
      rw [List.length_cons] at h
      have hi : i < 31 := by omega
      cases bit
      · simp [atTop]
      · show (BitVec.twoPow 32 31).getLsbD i = false
        rw [BitVec.getLsbD_twoPow]
        simp
        omega
    rw [aligned, UInt32.toBitVec_xor, BitVec.getLsbD_xor, htop, UInt32.toBitVec_shiftRight]
    simpa [Nat.add_comm] using hrest

theorem shift_aligned {bits : List Bool} (h : bits.length < 32) :
    shift (aligned bits >>> 1) = aligned bits := by
  have hlow : (aligned bits).toBitVec.getLsbD 0 = false := getLsbD_aligned (by omega)
  rw [shift_eq, top_shiftRight]
  show (aligned bits >>> 1) <<< 1 ^^^ 0 = _
  rw [UInt32.xor_zero, ← UInt32.toBitVec_inj]
  apply BitVec.eq_of_getLsbD_eq
  intro i hi
  cases i with
  | zero => simpa using hlow.symm
  | succ i => simp [hi, Nat.add_comm]

/-- Up to 32 bits of data are added first, then the register is shifted. -/
theorem run_eq_shifts {bits : List Bool} (h : bits.length ≤ 32) (register : UInt32) :
    Serial.run register bits = shifts bits.length (register ^^^ aligned bits) := by
  induction bits generalizing register with
  | nil => rw [aligned, UInt32.xor_zero]; rfl
  | cons bit rest ih =>
    rw [List.length_cons] at h
    calc Serial.run register (bit :: rest)
        = Serial.run (Serial.step register bit) rest := rfl
      _ = shifts rest.length (shift (register ^^^ atTop bit) ^^^ aligned rest) := by
        rw [ih (by omega), step_eq]
      _ = shifts rest.length (shift (register ^^^ atTop bit ^^^ aligned rest >>> 1)) := by
        rw [shift_xor (register ^^^ atTop bit), shift_aligned (by omega)]
      _ = shifts (bit :: rest).length (register ^^^ aligned (bit :: rest)) := by
        rw [UInt32.xor_assoc]; rfl

/-! ## A byte at once -/

/-- As long as only zeros fall out, the register moves up. -/
theorem toBitVec_shifts {n : Nat} {register : UInt32}
    (h : ∀ i, 32 - n ≤ i → register.toBitVec.getLsbD i = false) (hn : n ≤ 32) :
    (shifts n register).toBitVec = register.toBitVec <<< n := by
  induction n generalizing register with
  | zero => exact (BitVec.shiftLeft_zero _).symm
  | succ n ih =>
    have htop : top register = false := h 31 (by omega)
    have hshift : (shift register).toBitVec = register.toBitVec <<< 1 := by
      rw [shift_eq, htop]
      simp [reduction]
    rw [shifts, ih (fun i hi => ?_) (by omega), hshift]
    · rw [← BitVec.shiftLeft_add, Nat.add_comm]
    · rw [hshift, BitVec.getLsbD_shiftLeft]
      simp [h (i - 1) (by omega)]

theorem aligned_ofByte (byte : UInt8) : aligned (Bits.ofByte byte) = byte.toUInt32 <<< 24 := by
  have hall : ∀ value : Fin 256, aligned (Bits.ofNat 8 value) = (UInt8.ofNat value).toUInt32 <<< 24 := by
    decide +kernel
  have := hall ⟨byte.toNat, byte.toNat_lt⟩
  rw [Bits.ofByte]
  simpa using this

theorem table_get (index : Fin 256) : table.get index = shifts 8 (index.val.toUInt32 <<< 24) := by
  show table[index.val] = _
  rw [table, Vector.getElem_ofFn]

theorem shifts_low (register : UInt32) : shifts 8 ((register <<< 8) >>> 8) = register <<< 8 := by
  rw [← UInt32.toBitVec_inj, toBitVec_shifts (fun i hi => ?_) (by omega)]
  · apply BitVec.eq_of_getLsbD_eq
    intro i hi
    by_cases h : i < 8
    · simp [h]
    · have hback : 8 + (i - 8) = i := by omega
      simp [h, hback, hi]
  · simp
    omega

/-- The top byte of the register, and the other three. -/
theorem register_split (register : UInt32) :
    (register >>> 24) <<< 24 ^^^ (register <<< 8) >>> 8 = register := by
  rw [← UInt32.toBitVec_inj]
  apply BitVec.eq_of_getLsbD_eq
  intro i hi
  by_cases h : i < 24
  · have hin : 8 + i < 32 := by omega
    simp [h, hi, hin]
  · have hback : 24 + (i - 24) = i := by omega
    have hout : ¬ 8 + i < 32 := by omega
    simp [h, hi, hback, hout]

/-- One step by the table is eight shifts of the register with the byte added at the top. -/
theorem update_eq (crc : Crc) (byte : UInt8) :
    crc.update byte = ⟨shifts 8 (crc.register ^^^ byte.toUInt32 <<< 24)⟩ := by
  obtain ⟨register⟩ := crc
  have hindex : ((register >>> 24).toUInt8 ^^^ byte).toNat.toUInt32 =
      register >>> 24 ^^^ byte.toUInt32 := by
    have hlt : (register >>> 24).toNat < 256 := by
      rw [UInt32.toNat_shiftRight]
      have := register.toNat_lt
      simp [Nat.shiftRight_eq_div_pow]
      omega
    rw [← UInt32.toNat_inj]
    simp only [UInt32.toNat_xor, UInt8.toNat_xor, UInt32.toNat_toUInt8, UInt8.toNat_toUInt32]
    rw [Nat.mod_eq_of_lt hlt]
    have hword : (register >>> 24).toNat ^^^ byte.toNat < 2 ^ 32 :=
      Nat.xor_lt_two_pow (by omega) (by have := byte.toNat_lt; omega)
    exact Nat.mod_eq_of_lt hword
  have hentry := table_get ⟨((register >>> 24).toUInt8 ^^^ byte).toNat, UInt8.toNat_lt _⟩
  show Crc.mk (register <<< 8 ^^^ table.get _) = _
  apply congrArg Crc.mk
  calc register <<< 8 ^^^ table.get ⟨((register >>> 24).toUInt8 ^^^ byte).toNat, UInt8.toNat_lt _⟩
      = register <<< 8 ^^^ shifts 8 ((register >>> 24 ^^^ byte.toUInt32) <<< 24) := by
        rw [hentry, hindex]
    _ = shifts 8 ((register <<< 8) >>> 8) ^^^
          shifts 8 ((register >>> 24) <<< 24 ^^^ byte.toUInt32 <<< 24) := by
        rw [shifts_low, UInt32.shiftLeft_xor]
    _ = shifts 8 (((register >>> 24) <<< 24 ^^^ (register <<< 8) >>> 8) ^^^
          byte.toUInt32 <<< 24) := by
        rw [← shifts_xor, ← UInt32.xor_assoc, UInt32.xor_comm ((register <<< 8) >>> 8)]
    _ = shifts 8 (register ^^^ byte.toUInt32 <<< 24) := by rw [register_split]

theorem update_eq_run (crc : Crc) (byte : UInt8) :
    crc.update byte = ⟨Serial.run crc.register (Bits.ofByte byte)⟩ := by
  rw [update_eq, run_eq_shifts (by simp), Bits.length_ofByte, aligned_ofByte]

theorem updateAll_eq_run (crc : Crc) (bytes : List UInt8) :
    crc.updateAll bytes = ⟨Serial.run crc.register (Bits.ofBytes bytes)⟩ := by
  induction bytes generalizing crc with
  | nil => rfl
  | cons byte rest ih =>
    rw [updateAll_cons, ih, update_eq_run, Bits.ofBytes_cons, Serial.run_append]

/-- The checksum is the one by the shift register. -/
theorem ofBytes_eq_serial (bytes : List UInt8) : ofBytes bytes = Serial.ofBytes bytes := by
  rw [← value_updateAll_start, updateAll_eq_run]
  rfl

/-! ## Data in portions -/

/-- A portion of the data, as one call takes it in. -/
inductive Portion
  | one (byte : UInt8)
  | copies (byte : UInt8) (count : Nat)
  | slice (bytes : List UInt8)
deriving Repr, DecidableEq

def Portion.bytes : Portion → List UInt8
  | .one byte => [byte]
  | .copies byte count => List.replicate count byte
  | .slice bytes => bytes

def takePortion (crc : Crc) : Portion → Crc
  | .one byte => crc.update byte
  | .copies byte count => crc.updateRepeated byte count
  | .slice bytes => crc.updateAll bytes

theorem takePortion_eq (crc : Crc) (portion : Portion) :
    crc.takePortion portion = crc.updateAll portion.bytes := by
  cases portion with
  | one byte => rfl
  | copies byte count => exact updateRepeated_eq crc byte count
  | slice bytes => rfl

theorem foldl_takePortion (crc : Crc) (portions : List Portion) :
    portions.foldl takePortion crc = crc.updateAll (portions.flatMap Portion.bytes) := by
  induction portions generalizing crc with
  | nil => rfl
  | cons portion rest ih =>
    rw [List.foldl_cons, ih, takePortion_eq, List.flatMap_cons, updateAll_append]

/-- The checksum of a message is the one by the shift register. It may be continued where it
stopped, a run counts as its bytes, and the portions in which a message is taken in do not
matter. -/
theorem extends_serial :
    (∀ message, extend 0 message = Serial.ofBytes message) ∧
      (∀ checksum front back,
        extend (extend checksum front) back = extend checksum (front ++ back)) ∧
      (∀ (crc : Crc) byte count,
        crc.updateRepeated byte count = (List.replicate count byte).foldl update crc) ∧
      ∀ portions : List Portion, (portions.foldl takePortion start).value =
        Serial.ofBytes (portions.flatMap Portion.bytes) := by
  refine ⟨ofBytes_eq_serial, extend_extend, updateRepeated_eq, fun portions => ?_⟩
  rw [foldl_takePortion, value_updateAll_start, ofBytes_eq_serial]

end Bunzip.Crc
