/-!
# Bit strings

A stream is a string of bits, the most significant bit of each byte first. `value` is the number
that a bit string writes, `ofNat` writes a number in a given width, `ofBytes` lays bytes out as bits
and `pack` gathers bits into bytes again, filling the last byte with zeros.

The main statements are that reading undoes writing (`value_ofNat`, `ofNat_value`), that bytes are
recovered from their bits (`pack_ofBytes`), and bits from their bytes (`ofBytes_pack`).
-/

-- A power of numbers is the one of the core library, also where a general power is in scope.
attribute [instance (high), default_instance (high + 1)] instPowNat

namespace Bunzip.Bits

/-- The number that a bit string writes, most significant bit first. -/
def value (bits : List Bool) : Nat :=
  bits.foldl (fun n bit => 2 * n + bit.toNat) 0

/-- The low `width` bits of a number, most significant bit first. -/
def ofNat : Nat → Nat → List Bool
  | 0, _ => []
  | width + 1, n => n.testBit width :: ofNat width n

def ofByte (byte : UInt8) : List Bool :=
  ofNat 8 byte.toNat

def ofBytes (bytes : List UInt8) : List Bool :=
  bytes.flatMap ofByte

/-- Gathers bits into bytes; the last byte is filled with zeros. -/
def pack (bits : List Bool) : List UInt8 :=
  match bits with
  | [] => []
  | bit :: rest =>
    let first := (bit :: rest).take 8
    UInt8.ofNat (value (first ++ List.replicate (8 - first.length) false)) ::
      pack ((bit :: rest).drop 8)
termination_by bits.length
decreasing_by simp only [List.length_drop, List.length_cons]; omega

/-! ## Numbers and bits -/

@[simp] theorem value_nil : value [] = 0 := rfl

theorem foldl_value (bits : List Bool) (n : Nat) :
    bits.foldl (fun n bit => 2 * n + bit.toNat) n = n * 2 ^ bits.length + value bits := by
  induction bits generalizing n with
  | nil => simp [value]
  | cons bit rest ih =>
    simp only [value, List.foldl_cons, List.length_cons] at *
    rw [ih (2 * n + bit.toNat), ih (2 * 0 + bit.toNat), Nat.pow_succ]
    grind

theorem value_cons (bit : Bool) (rest : List Bool) :
    value (bit :: rest) = bit.toNat * 2 ^ rest.length + value rest := by
  rw [value, List.foldl_cons, foldl_value]
  simp

theorem value_append (front back : List Bool) :
    value (front ++ back) = value front * 2 ^ back.length + value back := by
  rw [value, List.foldl_append, foldl_value]
  rfl

theorem value_lt (bits : List Bool) : value bits < 2 ^ bits.length := by
  induction bits with
  | nil => simp
  | cons bit rest ih =>
    rw [value_cons, List.length_cons, Nat.pow_succ]
    cases bit <;> simp <;> omega

@[simp] theorem length_ofNat (width n : Nat) : (ofNat width n).length = width := by
  induction width with
  | zero => rfl
  | succ width ih => simp [ofNat, ih]

theorem value_ofNat (width n : Nat) : value (ofNat width n) = n % 2 ^ width := by
  induction width with
  | zero => simp [ofNat, Nat.mod_one]
  | succ width ih =>
    rw [ofNat, value_cons, ih, length_ofNat, Nat.toNat_testBit, Nat.mod_pow_succ]
    grind

theorem ofNat_congr {width m n : Nat} (h : ∀ i < width, m.testBit i = n.testBit i) :
    ofNat width m = ofNat width n := by
  induction width with
  | zero => rfl
  | succ width ih =>
    rw [ofNat, ofNat, h width (Nat.lt_succ_self width), ih fun i hi => h i (Nat.lt_succ_of_lt hi)]

theorem ofNat_add (high low n : Nat) :
    ofNat (high + low) n = ofNat high (n >>> low) ++ ofNat low n := by
  induction high with
  | zero => rw [Nat.zero_add]; rfl
  | succ high ih =>
    rw [Nat.succ_add, ofNat, ofNat, ih, Nat.testBit_shiftRight, Nat.add_comm low high,
      List.cons_append]

theorem value_injective {a b : List Bool} (hlen : a.length = b.length) (h : value a = value b) :
    a = b := by
  induction a generalizing b with
  | nil => exact (List.length_eq_zero_iff.1 hlen.symm).symm
  | cons x a ih =>
    cases b with
    | nil => simp at hlen
    | cons y b =>
      simp only [List.length_cons, Nat.succ.injEq] at hlen
      rw [value_cons, value_cons, hlen] at h
      have ha := value_lt a
      have hb := value_lt b
      rw [hlen] at ha
      have : x = y := by cases x <;> cases y <;> simp at h ⊢ <;> omega
      subst this
      rw [ih hlen (by omega)]

theorem ofNat_value (bits : List Bool) : ofNat bits.length (value bits) = bits := by
  apply value_injective (length_ofNat _ _)
  rw [value_ofNat, Nat.mod_eq_of_lt (value_lt bits)]

/-! ## Bytes and bits -/

@[simp] theorem length_ofByte (byte : UInt8) : (ofByte byte).length = 8 := length_ofNat _ _

theorem value_ofByte (byte : UInt8) : value (ofByte byte) = byte.toNat := by
  rw [ofByte, value_ofNat, Nat.mod_eq_of_lt byte.toNat_lt]

@[simp] theorem ofBytes_nil : ofBytes [] = [] := rfl

@[simp] theorem ofBytes_cons (byte : UInt8) (rest : List UInt8) :
    ofBytes (byte :: rest) = ofByte byte ++ ofBytes rest := rfl

@[simp] theorem ofBytes_append (front back : List UInt8) :
    ofBytes (front ++ back) = ofBytes front ++ ofBytes back := by
  simp [ofBytes]

@[simp] theorem length_ofBytes (bytes : List UInt8) :
    (ofBytes bytes).length = 8 * bytes.length := by
  induction bytes with
  | nil => rfl
  | cons byte rest ih => simp only [ofBytes_cons, List.length_append, length_ofByte, ih,
      List.length_cons]; omega

theorem pack_byte_append (byte : UInt8) (bits : List Bool) :
    pack (ofByte byte ++ bits) = byte :: pack bits := by
  have h8 := length_ofByte byte
  rw [pack.eq_def]
  split
  · rename_i h
    rw [List.append_eq_nil_iff] at h
    simp [h.1] at h8
  · rename_i bit rest h
    rw [← h, List.take_left' h8, List.drop_left' h8]
    simp [value_ofByte]

theorem pack_ofBytes (bytes : List UInt8) : pack (ofBytes bytes) = bytes := by
  induction bytes with
  | nil => simp [pack]
  | cons byte rest ih => rw [ofBytes_cons, pack_byte_append, ih]

theorem ofByte_value {bits : List Bool} (h : bits.length = 8) :
    ofByte (UInt8.ofNat (value bits)) = bits := by
  have hlt := value_lt bits
  rw [h] at hlt
  rw [ofByte, UInt8.toNat_ofNat', Nat.mod_eq_of_lt hlt, ← h, ofNat_value]

/-- Packed bits come back with fewer than eight zeros behind them. -/
theorem ofBytes_pack (bits : List Bool) :
    ∃ n < 8, ofBytes (pack bits) = bits ++ List.replicate n false := by
  induction hlen : bits.length using Nat.strongRecOn generalizing bits with
  | ind n ih =>
    cases bits with
    | nil => exact ⟨0, by omega, by simp [pack]⟩
    | cons bit rest =>
      rw [pack, ofBytes_cons]
      by_cases hshort : (bit :: rest).length < 8
      · rw [List.take_of_length_le (by omega), List.drop_of_length_le (by omega),
          ofByte_value (by simp only [List.length_append, List.length_replicate]; omega)]
        exact ⟨8 - (bit :: rest).length, by simp only [List.length_cons]; omega, by simp [pack]⟩
      · have htake : ((bit :: rest).take 8).length = 8 := by rw [List.length_take]; omega
        obtain ⟨m, hm, hrest⟩ := ih ((bit :: rest).drop 8).length
          (by rw [List.length_drop]; omega) _ rfl
        refine ⟨m, hm, ?_⟩
        rw [htake, Nat.sub_self, List.replicate_zero, List.append_nil, ofByte_value htake, hrest,
          ← List.append_assoc, List.take_append_drop]

end Bunzip.Bits
