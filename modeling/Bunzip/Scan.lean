import Bunzip.BitReader
import Bunzip.Fault

/-!
# Scans

A `Scan` reads from the unread bits and gives a value or a fault; the reader's place is known in
both cases. `Spends n` says that a scan which succeeds has taken at least `n` bits from the unread
ones. The loops of the decoder end because each round spends something.
-/

namespace Bunzip

/-- A computation that takes bits from a reader and may fail. -/
abbrev Scan := EStateM Fault BitReader

namespace Scan

def number (n : Nat) : Scan Nat := fun r =>
  match r.take? n with
  | some (value, r) => .ok value r
  | none => .error Defect.shortRead r

def bit : Scan Bool := do
  return (← number 1) == 1

def checksum : Scan UInt32 := do
  return UInt32.ofNat (← number 32)

def fail {α : Type} (error : StreamError) : Scan α := throw (.stream error)

/-- A computation that reads nothing. -/
def ofExcept {α : Type} : Except Fault α → Scan α
  | .ok value => pure value
  | .error fault => throw fault

/-! ## What a scan spends -/

/-- A scan that succeeds takes at least `n` bits. -/
def Spends {α : Type} (n : Nat) (scan : Scan α) : Prop :=
  ∀ r value next, scan r = .ok value next → next.bits.length + n ≤ r.bits.length

variable {α β : Type}

theorem Spends.weaken {m n : Nat} {scan : Scan α} (h : Spends n scan) (hmn : m ≤ n) :
    Spends m scan := fun r value next hrun => by
  have := h r value next hrun
  omega

theorem spends_number (n : Nat) : Spends n (number n) := by
  intro r value next h
  unfold number at h
  split at h
  · rename_i htake
    injection h with hvalue hnext
    subst hvalue hnext
    exact Nat.le_of_eq (BitReader.length_bits_take? htake)
  · cases h

theorem spends_pure (value : α) : Spends 0 (pure value : Scan α) := by
  intro r v next h
  injection h with _ hnext
  subst hnext
  exact Nat.le_refl _

theorem spends_throw (n : Nat) (fault : Fault) : Spends n (throw fault : Scan α) := by
  intro r v next h
  cases h

theorem spends_ofExcept (result : Except Fault α) : Spends 0 (ofExcept result) := by
  cases result with
  | ok value => exact spends_pure value
  | error fault => exact spends_throw 0 fault

theorem spends_fail (n : Nat) (error : StreamError) : Spends n (fail error : Scan α) :=
  spends_throw n _

theorem Spends.bind {m n : Nat} {scan : Scan α} {rest : α → Scan β} (h : Spends m scan)
    (hrest : ∀ value, Spends n (rest value)) : Spends (m + n) (scan >>= rest) := by
  intro r value next hrun
  rw [show (scan >>= rest) r = EStateM.bind scan rest r from rfl, EStateM.bind] at hrun
  split at hrun
  · rename_i v mid hmid
    have h₁ := h r v mid hmid
    have h₂ := hrest v mid value next hrun
    omega
  · cases hrun

theorem Spends.first {n : Nat} {scan : Scan α} {rest : α → Scan β} (h : Spends n scan)
    (hrest : ∀ value, Spends 0 (rest value)) : Spends n (scan >>= rest) :=
  h.bind hrest

theorem Spends.free {n : Nat} {scan : Scan α} (h : Spends n scan) : Spends 0 scan :=
  h.weaken (Nat.zero_le n)

theorem Spends.map {n : Nat} {scan : Scan α} (f : α → β) (h : Spends n scan) :
    Spends n (f <$> scan) := by
  intro r value next hrun
  rw [show (f <$> scan) r = EStateM.map f scan r from rfl, EStateM.map] at hrun
  split at hrun
  · rename_i v mid hmid
    injection hrun with _ hnext
    subst hnext
    exact h r v mid hmid
  · cases hrun

theorem spends_bit : Spends 1 bit :=
  (spends_number 1).first fun _ => spends_pure _

theorem spends_checksum : Spends 32 checksum :=
  (spends_number 32).first fun _ => spends_pure _

theorem spends_ite {n : Nat} {p : Prop} [Decidable p] {yes no : Scan α} (hyes : Spends n yes)
    (hno : Spends n no) : Spends n (if p then yes else no) := by
  split
  · exact hyes
  · exact hno

end Scan

end Bunzip
