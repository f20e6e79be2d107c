import Bunzip.Scan

/-!
# The word that a scan took

The converse of `Scan.Reads`: a scan that succeeded has taken a word from the unread bits, and
`Tells` says what this word and the value have in common. So what a decoder accepts can be written
down again from what it made of it.
-/

namespace Bunzip.Scan

variable {α β : Type}

/-- A scan that succeeds has taken a word that fits its value. -/
def Tells (scan : Scan α) (P : List Bool → α → Prop) : Prop :=
  ∀ r value next, scan r = .ok value next → ∃ word, r.bits = word ++ next.bits ∧ P word value

theorem tells_pure {P : List Bool → α → Prop} {value : α} (h : P [] value) :
    Tells (pure value : Scan α) P := by
  intro r out next hrun
  cases hrun
  exact ⟨[], rfl, h⟩

theorem tells_throw {P : List Bool → α → Prop} (fault : Fault) :
    Tells (throw fault : Scan α) P := by
  intro r out next hrun
  cases hrun

theorem tells_fail {P : List Bool → α → Prop} (error : StreamError) :
    Tells (fail error : Scan α) P := tells_throw _

theorem tells_ofExcept {P : List Bool → α → Prop} {result : Except Fault α}
    (h : ∀ value, result = .ok value → P [] value) : Tells (ofExcept result) P := by
  cases result with
  | ok value => exact tells_pure (h value rfl)
  | error fault => exact tells_throw fault

theorem tells_number (n : Nat) :
    Tells (number n) fun word value => word = Bits.ofNat n value ∧ value < 2 ^ n := by
  intro r value next hrun
  unfold number at hrun
  split at hrun
  · rename_i htake
    cases hrun
    have hle : n ≤ r.bits.length := by
      have := BitReader.length_bits_take? htake
      omega
    obtain ⟨other, hother, hbits⟩ := r.take?_eq_some n hle
    rw [htake] at hother
    cases hother
    have hlength : (r.bits.take n).length = n := by
      rw [List.length_take]
      omega
    have hdigits := Bits.ofNat_value (r.bits.take n)
    have hlt := Bits.value_lt (r.bits.take n)
    rw [hlength] at hdigits hlt
    exact ⟨r.bits.take n, by rw [hbits, List.take_append_drop], hdigits.symm, hlt⟩
  · cases hrun

theorem Tells.bind {P : List Bool → α → Prop} {R : List Bool → β → Prop} {scan : Scan α}
    {rest : α → Scan β} (h : Tells scan P)
    (hrest : ∀ value front, P front value →
      Tells (rest value) fun back out => R (front ++ back) out) :
    Tells (scan >>= rest) R := by
  intro r out next hrun
  change EStateM.bind scan rest r = _ at hrun
  rw [EStateM.bind] at hrun
  split at hrun
  · rename_i value mid hmid
    obtain ⟨front, hfront, hvalue⟩ := h r value mid hmid
    obtain ⟨back, hback, hout⟩ := hrest value front hvalue mid out next hrun
    exact ⟨front ++ back, by rw [hfront, hback, List.append_assoc], hout⟩
  · cases hrun

theorem Tells.mono {P R : List Bool → α → Prop} {scan : Scan α} (h : Tells scan P)
    (hPR : ∀ word value, P word value → R word value) : Tells scan R := by
  intro r value next hrun
  obtain ⟨word, hword, hvalue⟩ := h r value next hrun
  exact ⟨word, hword, hPR word value hvalue⟩

theorem tells_ite {P : List Bool → α → Prop} {p : Prop} [Decidable p] {yes no : Scan α}
    (hyes : p → Tells yes P) (hno : ¬ p → Tells no P) : Tells (if p then yes else no) P := by
  split
  · exact hyes ‹_›
  · exact hno ‹_›

theorem number_bind_congr {n : Nat} {f g : Nat → Scan α}
    (h : ∀ value < 2 ^ n, f value = g value) : number n >>= f = number n >>= g := by
  funext r
  show EStateM.bind _ _ r = EStateM.bind _ _ r
  unfold EStateM.bind
  cases hrun : number n r with
  | ok value next =>
    obtain ⟨-, -, -, hlt⟩ := tells_number n r value next hrun
    simp only [h value hlt]
  | error fault next => rfl

theorem tells_bit : Tells bit fun word b => word = [b] := by
  refine (tells_number 1).bind fun value front ⟨hfront, hlt⟩ => tells_pure ?_
  subst hfront
  rcases (by omega : value = 0 ∨ value = 1) with rfl | rfl <;> rfl

theorem tells_checksum : Tells Scan.checksum fun word checksum =>
    word = Bits.ofNat 32 checksum.toNat := by
  refine (tells_number 32).bind fun value front ⟨hfront, hlt⟩ => tells_pure ?_
  rw [List.append_nil, hfront, UInt32.toNat_ofNat', Nat.mod_eq_of_lt hlt]

end Bunzip.Scan
