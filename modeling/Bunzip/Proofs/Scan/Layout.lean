import Bunzip.Scan

/-!
# Where the unread bits lie

A scan that succeeds has moved its reader by a number of bits, and that number alone says where the
reader stands: `skip n` begins the bytes that the next `n` bits need, and none before it must. Moves
add up (`skip_skip`), so the place of a reader after any number of scans can be computed from the
bits that they took together.
-/

namespace Bunzip

namespace BitReader

variable {r : BitReader} {m n count : Nat}

/-- The reader without the first `n` held bits. -/
def dropHeld (n : Nat) (r : BitReader) : BitReader := { r with held := r.held.drop n }

/-- The reader after the next `n` bits. -/
def skip (n : Nat) (r : BitReader) : BitReader := (fetch (r.missing n) r).dropHeld n

/-! ## Begun bytes -/

theorem fetch_add (m n : Nat) (r : BitReader) : fetch (m + n) r = fetch n (fetch m r) := by
  induction m generalizing r with
  | zero => rw [Nat.zero_add]; rfl
  | succ m ih => rw [Nat.succ_add]; exact ih r.pull

theorem length_carry_fetch (count : Nat) (r : BitReader) :
    (fetch count r).carry.length = r.carry.length - count := by
  induction count generalizing r with
  | zero => rfl
  | succ count ih =>
    rw [fetch, ih]
    obtain ⟨held, _ | ⟨byte, carry⟩, _ | ⟨first, chunk⟩, used⟩ := r <;> simp [pull]

theorem length_chunk_fetch (count : Nat) (r : BitReader) :
    (fetch count r).chunk.length = r.chunk.length - (count - r.carry.length) := by
  induction count generalizing r with
  | zero => simp [fetch]
  | succ count ih =>
    rw [fetch, ih]
    obtain ⟨held, _ | ⟨byte, carry⟩, _ | ⟨first, chunk⟩, used⟩ := r <;> simp [pull]

theorem used_add_length_fetch (count : Nat) (r : BitReader) :
    (fetch count r).used + (fetch count r).chunk.length = r.used + r.chunk.length := by
  induction count generalizing r with
  | zero => rfl
  | succ count ih =>
    rw [fetch, ih]
    obtain ⟨held, _ | ⟨byte, carry⟩, _ | ⟨first, chunk⟩, used⟩ := r <;> simp [pull]
    omega

theorem carry_fetch_suffix (count : Nat) (r : BitReader) : (fetch count r).carry <:+ r.carry := by
  induction count generalizing r with
  | zero => exact List.suffix_rfl
  | succ count ih =>
    refine (ih r.pull).trans ?_
    obtain ⟨held, _ | ⟨byte, carry⟩, _ | ⟨first, chunk⟩, used⟩ := r
    · exact List.suffix_rfl
    · exact List.suffix_rfl
    · exact List.suffix_cons byte carry
    · exact List.suffix_cons byte carry

theorem chunk_fetch_suffix (count : Nat) (r : BitReader) : (fetch count r).chunk <:+ r.chunk := by
  induction count generalizing r with
  | zero => exact List.suffix_rfl
  | succ count ih =>
    refine (ih r.pull).trans ?_
    obtain ⟨held, _ | ⟨byte, carry⟩, _ | ⟨first, chunk⟩, used⟩ := r
    · exact List.suffix_rfl
    · exact List.suffix_cons first chunk
    · exact List.suffix_rfl
    · exact List.suffix_rfl

theorem pull_dropHeld (h : n ≤ r.held.length) : (r.dropHeld n).pull = r.pull.dropHeld n := by
  obtain ⟨held, _ | ⟨byte, carry⟩, _ | ⟨first, chunk⟩, used⟩ := r
  · rfl
  all_goals simp only [pull, dropHeld, List.drop_append_of_le_length h]

theorem length_held_pull_ge (r : BitReader) : r.held.length ≤ r.pull.held.length := by
  obtain ⟨held, _ | ⟨byte, carry⟩, _ | ⟨first, chunk⟩, used⟩ := r <;> simp [pull]

/-- The held bits that were read do not matter for the bytes behind them. -/
theorem fetch_dropHeld (h : n ≤ r.held.length) (count : Nat) :
    fetch count (r.dropHeld n) = (fetch count r).dropHeld n := by
  induction count generalizing r with
  | zero => rfl
  | succ count ih =>
    rw [fetch, pull_dropHeld h, ih (Nat.le_trans h r.length_held_pull_ge), fetch]

/-! ## Moves -/

theorem take?_eq_skip {value : Nat} {next : BitReader} (h : r.take? n = some (value, next)) :
    n ≤ r.bits.length ∧ next = r.skip n := by
  have hle : n ≤ r.bits.length := by
    refine Nat.le_of_not_lt fun hlt => ?_
    rw [r.take?_eq_none n hlt] at h
    cases h
  refine ⟨hle, ?_⟩
  rw [take?] at h
  unfold skip
  generalize fetch (r.missing n) r = fetched at h ⊢
  split at h
  split at h
  · cases h; rfl
  · cases h

theorem bits_skip (h : n ≤ r.bits.length) : (r.skip n).bits = r.bits.drop n := by
  obtain ⟨next, htake, hbits⟩ := r.take?_eq_some n h
  rw [← (take?_eq_skip htake).2, hbits]

theorem skip_zero (r : BitReader) : r.skip 0 = r := by
  have hmissing : r.missing 0 = 0 := by simp [missing]
  simp [skip, hmissing, fetch, dropHeld]

theorem le_length_held_fetch (h : n ≤ r.bits.length) :
    n ≤ (fetch (r.missing n) r).held.length := by
  rw [length_held_fetch]
  rw [length_bits] at h
  simp only [missing]
  omega

theorem length_held_skip (h : n ≤ r.bits.length) :
    (r.skip n).held.length = r.held.length + 8 * r.missing n - n := by
  simp only [skip, dropHeld, List.length_drop, length_held_fetch]
  rw [length_bits] at h
  simp only [missing]
  omega

theorem length_carry_skip (n : Nat) (r : BitReader) :
    (r.skip n).carry.length = r.carry.length - r.missing n :=
  length_carry_fetch _ _

theorem used_add_length_skip (n : Nat) (r : BitReader) :
    (r.skip n).used + (r.skip n).chunk.length = r.used + r.chunk.length :=
  used_add_length_fetch _ _

theorem length_chunk_skip (n : Nat) (r : BitReader) :
    (r.skip n).chunk.length = r.chunk.length - (r.missing n - r.carry.length) :=
  length_chunk_fetch _ _

theorem chunk_skip_suffix (n : Nat) (r : BitReader) : (r.skip n).chunk <:+ r.chunk :=
  chunk_fetch_suffix _ r

/-- The reader goes on in the carry and in the chunk. -/
structure Within (bits : BitState) (chunk : List UInt8) (r : BitReader) : Prop where
  carry_suffix : r.carry <:+ bits.carry
  used_le : r.used ≤ chunk.length
  chunk_eq : r.chunk = chunk.drop r.used

theorem within_bind (bits : BitState) (chunk : List UInt8) : (bind bits chunk).Within bits chunk :=
  ⟨List.suffix_rfl, Nat.zero_le _, rfl⟩

theorem Within.skip {bits : BitState} {chunk : List UInt8} {r : BitReader}
    (h : r.Within bits chunk) (n : Nat) : (r.skip n).Within bits chunk := by
  have htotal := used_add_length_skip n r
  have hlength := congrArg List.length h.chunk_eq
  have hused := h.used_le
  rw [List.length_drop] at hlength
  have hsuffix := (r.chunk_skip_suffix n).trans (h.chunk_eq ▸ List.drop_suffix r.used chunk)
  refine ⟨(carry_fetch_suffix _ r).trans h.carry_suffix, by omega, ?_⟩
  rw [List.suffix_iff_eq_drop.1 hsuffix]
  congr 1
  omega

theorem chunk_refill_suffix (r : BitReader) : r.refill.chunk <:+ r.chunk := by
  unfold refill
  split
  · exact chunk_fetch_suffix 1 r
  · exact List.suffix_rfl

/-- Moves add up: the bytes that the second begins are those that the first did not need. -/
theorem skip_skip (h : m + n ≤ r.bits.length) : (r.skip m).skip n = r.skip (m + n) := by
  have hm : m ≤ r.bits.length := by omega
  have hheld := le_length_held_fetch hm
  have hadd : r.missing m + (r.skip m).missing n = r.missing (m + n) := by
    have := length_held_skip hm
    simp only [missing] at *
    omega
  calc (r.skip m).skip n
      = (fetch ((r.skip m).missing n) ((fetch (r.missing m) r).dropHeld m)).dropHeld n := rfl
    _ = ((fetch (r.missing (m + n)) r).dropHeld m).dropHeld n := by
      rw [fetch_dropHeld hheld, ← fetch_add, hadd]
    _ = r.skip (m + n) := by simp only [skip, dropHeld, List.drop_drop]

theorem used_le_skip (h : m + n ≤ r.bits.length) : (r.skip m).used ≤ (r.skip (m + n)).used := by
  rw [← skip_skip h]
  have := used_add_length_skip n (r.skip m)
  have := length_chunk_skip n (r.skip m)
  omega

end BitReader

namespace Scan

variable {α β : Type}

/-- A scan that succeeds only moves its reader. -/
def Moves (scan : Scan α) : Prop :=
  ∀ r value next, scan r = .ok value next → ∃ n, n ≤ r.bits.length ∧ next = r.skip n

theorem moves_pure (value : α) : Moves (pure value : Scan α) := by
  intro r v next h
  cases h
  exact ⟨0, Nat.zero_le _, r.skip_zero.symm⟩

theorem moves_throw (fault : Fault) : Moves (throw fault : Scan α) := by
  intro r v next h
  cases h

theorem moves_fail (error : StreamError) : Moves (fail error : Scan α) := moves_throw _

theorem moves_ofExcept (result : Except Fault α) : Moves (ofExcept result) := by
  cases result with
  | ok value => exact moves_pure value
  | error fault => exact moves_throw fault

theorem moves_number (n : Nat) : Moves (number n) := by
  intro r value next h
  unfold number at h
  split at h
  · rename_i htake
    cases h
    exact ⟨n, BitReader.take?_eq_skip htake⟩
  · cases h

theorem Moves.bind {scan : Scan α} {rest : α → Scan β} (h : Moves scan)
    (hrest : ∀ value, Moves (rest value)) : Moves (scan >>= rest) := by
  intro r out next hrun
  change EStateM.bind scan rest r = _ at hrun
  rw [EStateM.bind] at hrun
  split at hrun
  · rename_i value mid hmid
    obtain ⟨m, hm, rfl⟩ := h r value mid hmid
    obtain ⟨n, hn, rfl⟩ := hrest value _ out next hrun
    rw [BitReader.bits_skip hm, List.length_drop] at hn
    exact ⟨m + n, by omega, BitReader.skip_skip (by omega)⟩
  · cases hrun

theorem moves_ite {p : Prop} [Decidable p] {yes no : Scan α} (hyes : Moves yes) (hno : Moves no) :
    Moves (if p then yes else no) := by
  split
  · exact hyes
  · exact hno

theorem moves_bit : Moves bit := (moves_number 1).bind fun _ => moves_pure _

theorem moves_checksum : Moves checksum := (moves_number 32).bind fun _ => moves_pure _

end Scan

end Bunzip
