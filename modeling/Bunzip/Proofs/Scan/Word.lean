import Bunzip.Scan

/-!
# The word that a scan reads

What a scan does is said by bit strings alone. `Reads word value` says that it takes exactly `word`
from the unread bits and gives `value`, whatever follows; `Fails front fault` that it stops when the
unread bits begin with `front`. A scan is `Decided n` if the next `n` bits settle which of the two
happens, so that it never misses a bit when `n` of them are there.

The main statement is that more input changes nothing but the bits that are left
(`Decided.extend`).
-/

namespace Bunzip.Scan

variable {α β : Type}

/-- The scan takes exactly `word` and gives `value`. -/
def Reads (scan : Scan α) (word : List Bool) (value : α) : Prop :=
  ∀ r rest, r.bits = word ++ rest → ∃ next, scan r = .ok value next ∧ next.bits = rest

/-- The scan stops with `fault` when the unread bits begin with `front`. -/
def Fails (scan : Scan α) (front : List Bool) (fault : Fault) : Prop :=
  ∀ r rest, r.bits = front ++ rest → ∃ next, scan r = .error fault next

/-- The next `n` bits settle what the scan does, and it asks for no bit behind them. -/
def Decided (n : Nat) (scan : Scan α) : Prop :=
  ∀ front : List Bool, front.length = n →
    (∃ word back value, front = word ++ back ∧ Reads scan word value) ∨
      ∃ fault, fault ≠ .defect .shortRead ∧ Fails scan front fault

/-! ## Words of compound scans -/

theorem reads_pure (value : α) : Reads (pure value : Scan α) [] value := by
  intro r rest h
  exact ⟨r, rfl, h⟩

theorem fails_throw (front : List Bool) (fault : Fault) :
    Fails (throw fault : Scan α) front fault := by
  intro r rest _
  exact ⟨r, rfl⟩

theorem reads_number (word : List Bool) : Reads (number word.length) word (Bits.value word) := by
  intro r rest h
  have hlen : word.length ≤ r.bits.length := by simp [h]
  obtain ⟨next, htake, hnext⟩ := r.take?_eq_some word.length hlen
  refine ⟨next, ?_, ?_⟩
  · rw [number, htake, h, List.take_left']
    rfl
  · rw [hnext, h, List.drop_left' rfl]

theorem reads_number_ofNat {width n : Nat} (h : n < 2 ^ width) :
    Reads (number width) (Bits.ofNat width n) n := by
  have := reads_number (Bits.ofNat width n)
  rwa [Bits.length_ofNat, Bits.value_ofNat, Nat.mod_eq_of_lt h] at this

theorem Reads.bind {scan : Scan α} {rest : α → Scan β} {word back : List Bool} {value : α} {out : β}
    (h : Reads scan word value) (hrest : Reads (rest value) back out) :
    Reads (scan >>= rest) (word ++ back) out := by
  intro r tail hr
  obtain ⟨mid, hmid, hbits⟩ := h r (back ++ tail) (by rw [hr, List.append_assoc])
  obtain ⟨next, hnext, hleft⟩ := hrest mid tail hbits
  refine ⟨next, ?_, hleft⟩
  show EStateM.bind scan rest r = _
  rw [EStateM.bind, hmid]
  exact hnext

theorem Reads.first {scan : Scan α} {rest : α → Scan β} {word : List Bool} {value : α} {out : β}
    (h : Reads scan word value) (hrest : Reads (rest value) [] out) :
    Reads (scan >>= rest) word out := by
  have hboth := h.bind hrest
  rwa [List.append_nil] at hboth

theorem reads_bit (b : Bool) : Reads bit [b] b := by
  have hvalue : (Bits.value [b] == 1) = b := by cases b <;> rfl
  refine (reads_number [b]).first ?_
  rw [hvalue]
  exact reads_pure b

theorem reads_checksum (checksum : UInt32) :
    Reads Scan.checksum (Bits.ofNat 32 checksum.toNat) checksum := by
  refine (reads_number_ofNat checksum.toNat_lt).first ?_
  rw [UInt32.ofNat_toNat]
  exact reads_pure checksum

theorem Reads.fails {scan : Scan α} {rest : α → Scan β} {word back : List Bool} {value : α}
    {fault : Fault} (h : Reads scan word value) (hrest : Fails (rest value) back fault) :
    Fails (scan >>= rest) (word ++ back) fault := by
  intro r tail hr
  obtain ⟨mid, hmid, hbits⟩ := h r (back ++ tail) (by rw [hr, List.append_assoc])
  obtain ⟨next, hnext⟩ := hrest mid tail hbits
  refine ⟨next, ?_⟩
  show EStateM.bind scan rest r = _
  rw [EStateM.bind, hmid]
  exact hnext

theorem Fails.bind {scan : Scan α} {front : List Bool} {fault : Fault} (h : Fails scan front fault)
    (rest : α → Scan β) : Fails (scan >>= rest) front fault := by
  intro r tail hr
  obtain ⟨next, hnext⟩ := h r tail hr
  refine ⟨next, ?_⟩
  show EStateM.bind scan rest r = _
  rw [EStateM.bind, hnext]

theorem Fails.append {scan : Scan α} {front : List Bool} {fault : Fault}
    (h : Fails scan front fault) (back : List Bool) : Fails scan (front ++ back) fault := by
  intro r tail hr
  exact h r (back ++ tail) (by rw [hr, List.append_assoc])

/-! ## Decided scans -/

theorem Decided.mono {m n : Nat} {scan : Scan α} (h : Decided m scan) (hmn : m ≤ n) :
    Decided n scan := by
  intro front hlen
  have htake : (front.take m).length = m := by rw [List.length_take]; omega
  rcases h (front.take m) htake with ⟨word, back, value, hfront, hreads⟩ | ⟨fault, hne, hfails⟩
  · refine .inl ⟨word, back ++ front.drop m, value, ?_, hreads⟩
    rw [← List.append_assoc, ← hfront, List.take_append_drop]
  · refine .inr ⟨fault, hne, ?_⟩
    rw [← List.take_append_drop m front]
    exact hfails.append _

theorem decided_pure (n : Nat) (value : α) : Decided n (pure value : Scan α) := by
  intro front _
  exact .inl ⟨[], front, value, rfl, reads_pure value⟩

theorem decided_throw (n : Nat) {fault : Fault} (h : fault ≠ .defect .shortRead) :
    Decided n (throw fault : Scan α) := by
  intro front _
  exact .inr ⟨fault, h, fails_throw front fault⟩

theorem decided_fail (n : Nat) (error : StreamError) : Decided n (fail error : Scan α) :=
  decided_throw n (by simp)

theorem decided_number (n : Nat) : Decided n (number n) := by
  intro front hlen
  subst hlen
  exact .inl ⟨front, [], _, (List.append_nil front).symm, reads_number front⟩

theorem Decided.bind {m n : Nat} {scan : Scan α} {rest : α → Scan β} (h : Decided m scan)
    (hrest : ∀ value, Decided n (rest value)) : Decided (m + n) (scan >>= rest) := by
  intro front hlen
  have htake : (front.take m).length = m := by rw [List.length_take]; omega
  rcases h (front.take m) htake with ⟨word, back, value, hfront, hreads⟩ | ⟨fault, hne, hfails⟩
  · have hword : front = word ++ (back ++ front.drop m) := by
      rw [← List.append_assoc, ← hfront, List.take_append_drop]
    have hback : n ≤ (back ++ front.drop m).length := by
      rw [List.length_append, List.length_drop, hlen]
      omega
    rcases (hrest value).mono hback _ rfl with ⟨word', tail, out, hsplit, hreads'⟩ |
      ⟨fault, hne, hfails'⟩
    · refine .inl ⟨word ++ word', tail, out, ?_, hreads.bind hreads'⟩
      rw [List.append_assoc, ← hsplit, ← hword]
    · refine .inr ⟨fault, hne, ?_⟩
      rw [hword]
      exact hreads.fails hfails'
  · refine .inr ⟨fault, hne, ?_⟩
    rw [← List.take_append_drop m front]
    exact (hfails.append _).bind rest

theorem Decided.first {n : Nat} {scan : Scan α} {rest : α → Scan β} (h : Decided n scan)
    (hrest : ∀ value, Decided 0 (rest value)) : Decided n (scan >>= rest) :=
  h.bind hrest

theorem decided_ite {n : Nat} {p : Prop} [Decidable p] {yes no : Scan α} (hyes : Decided n yes)
    (hno : Decided n no) : Decided n (if p then yes else no) := by
  split
  · exact hyes
  · exact hno

theorem decided_bit : Decided 1 bit :=
  (decided_number 1).first fun _ => decided_pure 0 _

theorem decided_checksum : Decided 32 checksum :=
  (decided_number 32).first fun _ => decided_pure 0 _

theorem decided_ofExcept {result : Except Fault α}
    (h : ∀ fault, result = .error fault → fault ≠ .defect .shortRead) :
    Decided 0 (ofExcept result) := by
  cases result with
  | ok value => exact decided_pure 0 value
  | error fault => exact decided_throw 0 (h fault rfl)

/-! ## More input -/

/-- Two runs of a scan do the same, and the second has `extra` bits more to go on with. -/
inductive Twin (extra : List Bool) :
    EStateM.Result Fault BitReader α → EStateM.Result Fault BitReader α → Prop
  | ok {value : α} {r r' : BitReader} (h : r'.bits = r.bits ++ extra) :
    Twin extra (.ok value r) (.ok value r')
  | error {fault : Fault} {r r' : BitReader} : Twin extra (.error fault r) (.error fault r')

/-- Bits behind the deciding ones do not change what a scan does. -/
theorem Decided.extend {n : Nat} {scan : Scan α} (h : Decided n scan) {r r' : BitReader}
    {extra : List Bool} (hn : n ≤ r.bits.length) (hr : r'.bits = r.bits ++ extra) :
    Twin extra (scan r) (scan r') := by
  rcases h.mono hn r.bits rfl with ⟨word, back, value, hword, hreads⟩ | ⟨fault, _, hfails⟩
  · obtain ⟨next, hrun, hbits⟩ := hreads r back hword
    obtain ⟨next', hrun', hbits'⟩ := hreads r' (back ++ extra) (by
      rw [hr, hword, List.append_assoc])
    rw [hrun, hrun']
    exact .ok (by rw [hbits', hbits])
  · obtain ⟨next, hrun⟩ := hfails r [] (List.append_nil _).symm
    obtain ⟨next', hrun'⟩ := hfails r' extra hr
    rw [hrun, hrun']
    exact .error

end Bunzip.Scan
