import Bunzip.Bits

/-!
# The map of used bytes

A block names the bytes it uses by words of 16 flags, the first flag in the top bit. The first word
tells which of the sixteen groups of sixteen bytes have a member; one bitmap follows for each such
group. `decode` lists the bytes in increasing order and `encode` writes the map of a set.
-/

namespace Bunzip.UsedMap

/-- Flag `i` of a word, counted from the top. -/
def flag (word : UInt16) (i : Nat) : Bool :=
  word.toNat.testBit (15 - i)

/-- The positions of the flags that are set, in order. -/
def flagged (word : UInt16) : List Nat :=
  (List.range 16).filter (flag word)

/-- The bytes of a group that its bitmap names. -/
def members (group : Nat) (bitmap : UInt16) : List UInt8 :=
  (flagged bitmap).map fun i => UInt8.ofNat (16 * group + i)

/-- The bytes that a group word and the bitmaps after it name; groups whose bitmap is missing name
none. -/
def decode (groups : UInt16) (bitmaps : List UInt16) : List UInt8 :=
  ((flagged groups).zip bitmaps).flatMap fun (group, bitmap) => members group bitmap

/-- `decode` of a list that begins with the group word; an empty list is no map. -/
def decode? : List UInt16 → Option (List UInt8)
  | [] => none
  | groups :: bitmaps => some (decode groups bitmaps)

/-! ## Writing -/

/-- The word whose flag `i` is `p i`. -/
def ofFlags (p : Nat → Bool) : UInt16 :=
  UInt16.ofNat (Bits.value ((List.range 16).map p))

/-- The sixteen flags of a group, for a set of bytes. -/
def bitmap (used : UInt8 → Bool) (group : Nat) : UInt16 :=
  ofFlags fun i => used (UInt8.ofNat (16 * group + i))

/-- The groups that have a member. -/
def groupWord (used : UInt8 → Bool) : UInt16 :=
  ofFlags fun group => (List.range 16).any fun i => used (UInt8.ofNat (16 * group + i))

/-- The bitmaps of the groups that have a member. -/
def bitmaps (used : UInt8 → Bool) : List UInt16 :=
  (flagged (groupWord used)).map (bitmap used)

/-- The map of a set of bytes. -/
def encode (used : UInt8 → Bool) : List UInt16 :=
  groupWord used :: bitmaps used

/-! ## Flags -/

theorem flagged_length_le (word : UInt16) : (flagged word).length ≤ 16 := by
  simpa [flagged] using List.length_filter_le (flag word) (List.range 16)

theorem value_testBit (bits : List Bool) (i : Nat) (h : i < bits.length) :
    (Bits.value bits).testBit (bits.length - 1 - i) = bits[i] := by
  induction bits generalizing i with
  | nil => simp at h
  | cons bit rest ih =>
    rw [Bits.value_cons]
    have hlt := Bits.value_lt rest
    cases i with
    | zero =>
      rw [Nat.mul_comm, Nat.testBit_two_pow_mul_add _ hlt]
      cases bit <;> simp
    | succ i =>
      simp only [List.length_cons] at h
      rw [Nat.mul_comm, Nat.testBit_two_pow_mul_add _ hlt]
      have := ih i (by omega)
      simp only [List.length_cons, List.getElem_cons_succ]
      rw [if_pos (by omega), ← this]
      congr 1
      omega

theorem flag_ofFlags (p : Nat → Bool) (i : Nat) (h : i < 16) : flag (ofFlags p) i = p i := by
  have hlen : ((List.range 16).map p).length = 16 := by simp
  have hlt := Bits.value_lt ((List.range 16).map p)
  rw [hlen] at hlt
  have hbit := value_testBit ((List.range 16).map p) i (by omega)
  simp only [List.length_map, List.length_range, List.getElem_map, List.getElem_range] at hbit
  rw [flag, ofFlags, UInt16.toNat_ofNat', Nat.mod_eq_of_lt hlt, hbit]

theorem flagged_ofFlags (p : Nat → Bool) : flagged (ofFlags p) = (List.range 16).filter p := by
  apply List.filter_congr
  intro i hi
  rw [flag_ofFlags p i (List.mem_range.1 hi)]

end Bunzip.UsedMap
