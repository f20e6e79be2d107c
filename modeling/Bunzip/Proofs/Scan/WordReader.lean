import Bunzip.Proofs.Scan.Layout
import Bunzip.WordReader

/-!
# A word of bits is a list of bits

What stands in the word of a reader is the list of its low bits (`WordState.held`), and the bytes
that were begun are those before the place in the carry and in the chunk. Seen like this
(`WordReader.view`) a reader with a word does what a reader with a list of bits does, as long as the
word has at most 64 unread bits (`WordReader.Fits`): a byte that moves in takes the place of bits
that were read (`WordState.held_shiftIn`).
-/

namespace Bunzip

theorem BitReader.fetch_of_nil {r : BitReader} (hcarry : r.carry = []) (hchunk : r.chunk = [])
    (count : Nat) : fetch count r = r := by
  obtain ⟨held, carry, chunk, used⟩ := r
  obtain rfl : carry = [] := hcarry
  obtain rfl : chunk = [] := hchunk
  induction count with
  | zero => rfl
  | succ count ih => exact ih

/-! ## Words -/

namespace WordState

def held (state : WordState) : List Bool := Bits.ofNat state.count state.word.toNat

def view (state : WordState) : BitState := ⟨state.held, state.carry⟩

@[simp] theorem length_held (state : WordState) : state.held.length = state.count :=
  Bits.length_ofNat _ _

theorem pending_view (state : WordState) : state.view.pending = state.pending := by
  rw [BitState.pending, pending, view, length_held, Nat.mul_comm]

/-- Below bit 64 a byte that is shifted in stands behind the bits that were there. -/
theorem testBit_shiftIn (state : WordState) (byte : UInt8) {i : Nat} (h : i < 64) :
    (state.shiftIn byte).word.toNat.testBit i =
      (decide (8 ≤ i) && state.word.toNat.testBit (i - 8) || byte.toNat.testBit i) := by
  rw [shiftIn, UInt64.toNat_or, Nat.testBit_or, UInt64.toNat_shiftLeft, Nat.testBit_mod_two_pow,
    Nat.testBit_shiftLeft, UInt8.toNat_toUInt64]
  simp [h]

/-- A byte that moves in is read behind the bits that were there, if there is room for it. -/
theorem held_shiftIn {state : WordState} (byte : UInt8) (h : state.count ≤ 56) :
    (state.shiftIn byte).held = state.held ++ Bits.ofByte byte := by
  have hbyte {i : Nat} (hi : 8 ≤ i) : byte.toNat.testBit i = false :=
    Nat.testBit_lt_two_pow (Nat.lt_of_lt_of_le byte.toNat_lt (Nat.pow_le_pow_right (by omega) hi))
  rw [held, show (state.shiftIn byte).count = state.count + 8 from rfl, Bits.ofNat_add]
  congr 1
  · refine Bits.ofNat_congr fun i hi => ?_
    rw [Nat.testBit_shiftRight, testBit_shiftIn _ _ (by omega), hbyte (by omega),
      Nat.add_sub_cancel_left]
    simp
  · refine Bits.ofNat_congr fun i hi => ?_
    rw [testBit_shiftIn _ _ (by omega), decide_eq_false (by omega)]
    simp

end WordState

namespace WordReader

variable {r next : WordReader} {n : Nat}

/-- The reader with its bits in a list. -/
def view (r : WordReader) : BitReader :=
  ⟨r.kept.held, r.kept.carry.drop r.begun, r.chunk.drop r.used, r.used⟩

def Fits (r : WordReader) : Prop := r.kept.count ≤ 64

theorem view_suspend (r : WordReader) : r.suspend.view = r.view.suspend := rfl

theorem available_eq (r : WordReader) : r.available = r.view.bits.length := by
  rw [BitReader.length_bits]
  simp only [available, view, WordState.length_held, List.length_drop]
  omega

theorem hasBits_view (r : WordReader) (n : Nat) : r.view.hasBits n = r.hasBits n := by
  rw [Bool.eq_iff_iff, BitReader.hasBits_iff, hasBits, decide_eq_true_eq, available_eq]

/-! ## Bytes -/

theorem view_of_pull? (h : r.pull? = some next) (hroom : r.kept.count ≤ 56) :
    next.view = r.view.pull := by
  obtain ⟨state, begun, chunk, used⟩ := r
  unfold pull? at h
  split at h
  · rename_i byte hbyte
    obtain ⟨hlt, rfl⟩ := List.getElem?_eq_some_iff.1 hbyte
    cases h
    simp only [view, List.drop_eq_getElem_cons hlt, BitReader.pull, WordState.held_shiftIn _ hroom]
    rfl
  rename_i hcarry
  split at h
  · rename_i byte hbyte
    obtain ⟨hlt, rfl⟩ := List.getElem?_eq_some_iff.1 hbyte
    cases h
    simp only [view, List.drop_eq_getElem_cons hlt, BitReader.pull, WordState.held_shiftIn _ hroom,
      show (state.shiftIn chunk[used]).carry = state.carry from rfl,
      List.drop_eq_nil_of_le (List.getElem?_eq_none_iff.1 hcarry)]
  · cases h

theorem view_pull_of_none (h : r.pull? = none) : r.view.pull = r.view ∧
    r.view.carry = [] ∧ r.view.chunk = [] := by
  obtain ⟨state, begun, chunk, used⟩ := r
  unfold pull? at h
  split at h
  · cases h
  rename_i hcarry
  split at h
  · cases h
  · rename_i hchunk
    have hleft := List.drop_eq_nil_of_le (List.getElem?_eq_none_iff.1 hcarry)
    have hright := List.drop_eq_nil_of_le (List.getElem?_eq_none_iff.1 hchunk)
    simp only [view, hleft, hright, BitReader.pull, and_self]

theorem view_refill (r : WordReader) : r.refill.view = r.view.refill := by
  have hcount : r.view.held.length = r.kept.count := r.kept.length_held
  rw [refill, BitReader.refill, hcount]
  split
  · rename_i hroom
    cases hpull : r.pull? with
    | none => exact (view_pull_of_none hpull).1.symm
    | some next => exact view_of_pull? hpull hroom
  · rfl

theorem Fits.refill (h : r.Fits) : r.refill.Fits := by
  unfold WordReader.refill
  split
  · cases hpull : r.pull? with
    | none => exact h
    | some next =>
      have hcount := count_pull? hpull
      show next.kept.count ≤ 64
      omega
  · exact h

/-- The bytes that are gathered are those that the next `n` bits need. -/
theorem view_gather (hn : n ≤ 57) (r : WordReader) :
    (r.gather n).view = BitReader.fetch (r.view.missing n) r.view := by
  have hmissing (r : WordReader) : r.view.missing n = (n - r.kept.count + 7) / 8 := by
    rw [BitReader.missing, show r.view.held = r.kept.held from rfl, WordState.length_held]
  fun_induction gather n r with
  | case1 r hlt next hpull ih =>
    have hcount := count_pull? hpull
    have hview := view_of_pull? hpull (by omega)
    obtain ⟨m, hm⟩ : ∃ m, r.view.missing n = m + 1 :=
      ⟨(n - r.kept.count + 7) / 8 - 1, by rw [hmissing]; omega⟩
    have hrest : next.view.missing n = m := by
      rw [hmissing] at hm ⊢
      omega
    rw [ih, hrest, hview, hm, BitReader.fetch]
  | case2 r hlt hpull =>
    obtain ⟨-, hcarry, hchunk⟩ := view_pull_of_none hpull
    rw [BitReader.fetch_of_nil hcarry hchunk]
  | case3 r hge =>
    rw [show r.view.missing n = 0 by rw [hmissing]; omega, BitReader.fetch]

/-- A word that gathers bytes for at most 57 bits has room for them. -/
theorem Fits.gather (h : r.Fits) (hn : n ≤ 57) : (r.gather n).Fits := by
  fun_induction WordReader.gather n r with
  | case1 r hlt next hpull ih =>
    have hcount := count_pull? hpull
    exact ih (show next.kept.count ≤ 64 by omega)
  | case2 => exact h
  | case3 => exact h

/-! ## Numbers -/

theorem toNat_mask (word : UInt64) (hn : n ≤ 32) :
    (word &&& (1 <<< UInt64.ofNat n) - 1).toUInt32.toNat = word.toNat % 2 ^ n := by
  have hpow : 2 ^ n ≤ 2 ^ 32 := Nat.pow_le_pow_right (by omega) hn
  have hbit : ((1 : UInt64) <<< UInt64.ofNat n).toNat = 2 ^ n := by
    rw [UInt64.toNat_shiftLeft, UInt64.toNat_ofNat', Nat.mod_eq_of_lt (by omega : n < 2 ^ 64),
      Nat.mod_eq_of_lt (by omega : n < 64), UInt64.toNat_one, Nat.one_shiftLeft]
    exact Nat.mod_eq_of_lt (by omega)
  have hmask : ((1 : UInt64) <<< UInt64.ofNat n - 1).toNat = 2 ^ n - 1 := by
    rw [UInt64.toNat_sub_of_le _ _ (UInt64.le_iff_toNat_le.2 ?_), hbit, UInt64.toNat_one]
    rw [hbit]
    exact Nat.one_le_two_pow
  have hlt : word.toNat % 2 ^ n < 2 ^ n := Nat.mod_lt _ (Nat.two_pow_pos n)
  rw [UInt64.toNat_toUInt32, UInt64.toNat_and, hmask, Nat.and_two_pow_sub_one_eq_mod,
    Nat.mod_eq_of_lt (by omega)]

theorem toNat_number {word : UInt64} {count : Nat} (hn : n ≤ 32) (hle : n ≤ count)
    (hpos : 1 ≤ n) (hcount : count ≤ 64) :
    ((word >>> UInt64.ofNat (count - n)) &&& (1 <<< UInt64.ofNat n) - 1).toUInt32.toNat =
      Bits.value ((Bits.ofNat count word.toNat).take n) := by
  obtain ⟨low, rfl⟩ := Nat.exists_eq_add_of_le hle
  rw [toNat_mask _ hn, Bits.ofNat_add, List.take_left' (Bits.length_ofNat _ _), Bits.value_ofNat,
    Nat.add_sub_cancel_left, UInt64.toNat_shiftRight, UInt64.toNat_ofNat',
    Nat.mod_eq_of_lt (by omega : low < 2 ^ 64), Nat.mod_eq_of_lt (by omega : low < 64)]

/-- A number of up to 32 bits is read from the word as it is from the list. -/
theorem take?_view (h : r.Fits) (hpos : 1 ≤ n) (hn : n ≤ 32) (hbits : r.hasBits n = true) :
    r.view.take? n = some ((r.number n).1.toNat, (r.number n).2.view) ∧ (r.number n).2.Fits := by
  have hview := view_gather (show n ≤ 57 by omega) r
  have hfits := h.gather (show n ≤ 57 by omega)
  have henough : n ≤ (r.gather n).kept.count := by
    have hlength := BitReader.length_held_fetch (r.view.missing n) r.view
    rw [← hview, view, WordState.length_held] at hlength
    rw [← hasBits_view, BitReader.hasBits_iff, BitReader.length_bits] at hbits
    rw [hlength, BitReader.missing]
    omega
  unfold number
  rw [BitReader.take?, ← hview]
  generalize r.gather n = after at hfits henough ⊢
  obtain ⟨⟨word, count, carry⟩, begun, chunk, used⟩ := after
  have hle : n ≤ count := henough
  have hcount : count ≤ 64 := hfits
  simp only [view, WordState.held, Bits.length_ofNat, if_pos hle, if_neg (Nat.not_lt.2 hle),
    toNat_number hn hle hpos hcount]
  refine ⟨?_, Nat.le_trans (Nat.sub_le count n) hcount⟩
  obtain ⟨low, rfl⟩ := Nat.exists_eq_add_of_le hle
  rw [Nat.add_sub_cancel_left, Bits.ofNat_add, List.drop_left' (Bits.length_ofNat _ _)]

end WordReader

end Bunzip
