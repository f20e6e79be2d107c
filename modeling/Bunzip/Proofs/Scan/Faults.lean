import Bunzip.Scan

/-!
# The faults of a scan

`Blames P` says of a scan that each fault it stops with is a missing bit or has the property `P`. A
compound scan is blamed for what its parts are blamed for (`Blames.bind`).
-/

namespace Bunzip.Scan

variable {α β : Type} {P : Fault → Prop} {fault : Fault}

/-- Where the scan stops, a bit is missing or the fault has the property. -/
def Blames (P : Fault → Prop) (scan : Scan α) : Prop :=
  ∀ r fault next, scan r = .error fault next → fault = .defect .shortRead ∨ P fault

theorem blames_pure (value : α) : Blames P (pure value : Scan α) := by
  intro r fault next h
  cases h

theorem blames_throw (h : P fault) : Blames P (throw fault : Scan α) := by
  intro r other next hrun
  cases hrun
  exact .inr h

theorem blames_fail {error : StreamError} (h : P (.stream error)) :
    Blames P (fail error : Scan α) := blames_throw h

theorem blames_ofExcept {result : Except Fault α} (h : ∀ fault, result = .error fault → P fault) :
    Blames P (ofExcept result) := by
  cases result with
  | ok value => exact blames_pure value
  | error fault => exact blames_throw (h fault rfl)

theorem blames_number (n : Nat) : Blames P (number n) := by
  intro r fault next h
  unfold number at h
  split at h
  · cases h
  · cases h
    exact .inl rfl

/-- The second part goes on from a value that the first part gives. -/
theorem Blames.bind {scan : Scan α} {rest : α → Scan β} (h : Blames P scan)
    (hrest : ∀ r value next, scan r = .ok value next → Blames P (rest value)) :
    Blames P (scan >>= rest) := by
  intro r fault next hrun
  change EStateM.bind scan rest r = _ at hrun
  rw [EStateM.bind] at hrun
  split at hrun
  · exact hrest _ _ _ ‹_› _ _ _ hrun
  · rename_i hscan
    cases hrun
    exact h _ _ _ hscan

theorem Blames.first {scan : Scan α} {rest : α → Scan β} (h : Blames P scan)
    (hrest : ∀ value, Blames P (rest value)) : Blames P (scan >>= rest) :=
  h.bind fun _ value _ _ => hrest value

theorem blames_ite {p : Prop} [Decidable p] {yes no : Scan α} (hyes : p → Blames P yes)
    (hno : ¬ p → Blames P no) : Blames P (if p then yes else no) := by
  split
  · exact hyes ‹_›
  · exact hno ‹_›

theorem blames_bit : Blames P bit := (blames_number 1).first fun _ => blames_pure _

theorem blames_checksum : Blames P Scan.checksum := (blames_number 32).first fun _ => blames_pure _

end Bunzip.Scan
