import Bunzip.Block.Tokens

/-!
# Expansion of a token sequence

What an expansion has given, together with what the tokens still to come say, is the same before and
after each token (`Expansion.accept_eq`), so that in the end it has given what the sequence says
(`Token.expand`). Tokens are read one by one by `Token.expandFrom`, which carries the run that is
being read.
-/

namespace Bunzip.Block

namespace Token

/-- The bytes of a token sequence behind the digits of a run that count `run` copies so far and
`weight` with the next digit 1. -/
def expandFrom (order : List UInt8) (run weight : Nat) : List Token → List UInt8
  | .runA :: rest => expandFrom order (run + weight) (2 * weight) rest
  | .runB :: rest => expandFrom order (run + 2 * weight) (2 * weight) rest
  | .recent position :: rest =>
    List.replicate run (order.headD 0) ++
      match order[position]? with
      | some byte => byte :: expandFrom (byte :: order.eraseIdx position) 0 1 rest
      | none => []
  | _ => List.replicate run (order.headD 0)

theorem expandFrom_digits (order : List UInt8) (run weight : Nat) (digits rest : List Token)
    (h : ∀ digit ∈ digits, digit.isDigit = true) :
    expandFrom order run weight (digits ++ rest) =
      expandFrom order (run + weight * runValue digits) (weight * 2 ^ digits.length) rest := by
  induction digits generalizing run weight with
  | nil => simp [runValue]
  | cons digit digits ih =>
    have hdigits : ∀ digit ∈ digits, digit.isDigit = true := fun d hd =>
      h d (List.mem_cons_of_mem _ hd)
    have hdigit := h digit List.mem_cons_self
    have hpow : 2 * weight * 2 ^ digits.length = weight * 2 ^ (digits.length + 1) := by
      rw [Nat.pow_succ, Nat.mul_comm 2 weight, Nat.mul_assoc, Nat.mul_comm 2]
    cases digit with
    | runA =>
      rw [List.cons_append, expandFrom, ih _ _ hdigits, List.length_cons, hpow, runValue]
      congr 1
      rw [Nat.mul_add, Nat.mul_one, Nat.mul_comm 2 weight, Nat.mul_assoc, Nat.add_assoc]
    | runB =>
      rw [List.cons_append, expandFrom, ih _ _ hdigits, List.length_cons, hpow, runValue]
      congr 1
      rw [Nat.mul_add, Nat.mul_comm 2 weight, Nat.mul_assoc, Nat.add_assoc]
    | recent => cases hdigit
    | finish => cases hdigit

/-- Read token by token, a sequence says what it says as a whole. -/
theorem expandFrom_eq_expand (order : List UInt8) (tokens : List Token) :
    expandFrom order 0 1 tokens = expand order tokens := by
  induction hlen : tokens.length using Nat.strongRecOn generalizing order tokens with
  | ind n ih =>
    have hsplit := List.takeWhile_append_dropWhile (p := isDigit) (l := tokens)
    have hdigits : ∀ digit ∈ tokens.takeWhile isDigit, digit.isDigit = true := fun d hd =>
      List.all_eq_true.1 List.all_takeWhile d hd
    have hhead := List.head?_dropWhile_not isDigit tokens
    rw [expand]
    conv => lhs; rw [← hsplit, expandFrom_digits _ _ _ _ _ hdigits]
    rw [Nat.zero_add, Nat.one_mul]
    split
    · rename_i position rest hdrop
      rw [hdrop, expandFrom]
      congr 1
      have hlt : rest.length < n := by
        have := congrArg List.length hsplit
        rw [hdrop, List.length_append, List.length_cons] at this
        omega
      cases order[position]? with
      | some byte => simp only [ih _ hlt _ _ rfl]
      | none => rfl
    · rename_i hne
      rw [List.append_nil]
      cases hdrop : tokens.dropWhile isDigit with
      | nil => rfl
      | cons token rest =>
        rw [hdrop] at hhead
        cases token with
        | recent position => exact absurd hdrop (hne position rest)
        | finish => rfl
        | runA => simp [isDigit] at hhead
        | runB => simp [isDigit] at hhead

theorem run_le_length_expandFrom (order : List UInt8) (run weight : Nat) (tokens : List Token) :
    run ≤ (expandFrom order run weight tokens).length := by
  induction tokens generalizing run weight with
  | nil => simp [expandFrom]
  | cons token rest ih =>
    cases token with
    | runA => exact Nat.le_trans (Nat.le_add_right _ _) (ih _ _)
    | runB => exact Nat.le_trans (Nat.le_add_right _ _) (ih _ _)
    | recent => simp [expandFrom]
    | finish => simp [expandFrom]

theorem length_expandFrom_le (order : List UInt8) (run weight : Nat) (token : Token)
    (rest : List Token) : (expandFrom order run weight [token]).length ≤
      (expandFrom order run weight (token :: rest)).length := by
  cases token with
  | runA => simpa [expandFrom] using run_le_length_expandFrom order _ _ rest
  | runB => simpa [expandFrom] using run_le_length_expandFrom order _ _ rest
  | recent position =>
    rw [expandFrom, expandFrom, List.length_append, List.length_append]
    refine Nat.add_le_add_left ?_ _
    split
    · simp [expandFrom]
    · exact Nat.le_refl _
  | finish => exact Nat.le_refl _

end Token

namespace Expansion

/-- The bytes in the order of their last use are `order`, and the counts are those of the bytes that
were given. -/
structure Holds (e : Expansion) (order : List UInt8) : Prop where
  ne_nil : order ≠ []
  recents : ∀ (i : Nat) (byte : UInt8), order[i]? = some byte →
    ∃ place, e.recents.toList[i]? = some place ∧ e.used[place.toNat]? = some byte
  length_eq : order.length = e.used.size
  current : e.used[e.current]? = order.head?
  idle : e.run = 0 → e.weight = 1
  weight_pos : 0 < e.weight
  size_counts : e.counts.size = 256
  counts : ∀ byte : UInt8, e.counts[byte.toNat]? = some (e.bytes.toList.count byte)

variable {e : Expansion} {order : List UInt8} {position : Nat}

theorem holds_start (limit : Nat) {used : List UInt8} (hne : used ≠ [])
    (hlength : used.length ≤ 256) : (start limit used).Holds used := by
  refine ⟨hne, ?_, rfl, ?_, fun _ => rfl, Nat.one_pos, by simp [start],
    fun byte => ?_⟩
  · intro i byte hbyte
    obtain ⟨hi, hget⟩ := List.getElem?_eq_some_iff.1 hbyte
    refine ⟨UInt8.ofNat i, ?_, ?_⟩
    · simp [start, MoveToFront.ofSize, MoveToFront.toList, show i < 256 by omega]
    · simp [start, Nat.mod_eq_of_lt (show i < 256 by omega), hbyte]
  · simp [start, List.head?_eq_getElem?]
  · have hbyte := byte.toNat_lt
    simp [start, hbyte]

theorem counts_modify {counts : Array Nat} {bytes : List UInt8}
    (h : ∀ byte : UInt8, counts[byte.toNat]? = some (bytes.count byte)) (byte : UInt8) (n : Nat) :
    ∀ other : UInt8, (counts.modify byte.toNat (· + n))[other.toNat]? =
      some ((bytes ++ List.replicate n byte).count other) := by
  intro other
  rw [Array.getElem?_modify, h other, List.count_append, List.count_replicate]
  by_cases heq : byte = other
  · simp [heq]
  · have hne : byte.toNat ≠ other.toNat := fun hnat => heq (UInt8.toNat_inj.1 hnat)
    simp [heq, hne]

theorem Holds.flush (h : e.Holds order) : ∃ after, e.flush = .ok () after ∧ after.Holds order ∧
    after.limit = e.limit ∧ after.used = e.used ∧ after.run = 0 ∧ after.weight = 1 ∧
    after.bytes.toList = e.bytes.toList ++ List.replicate e.run (order.headD 0) := by
  obtain ⟨limit, used, recents, current, run, weight, counts, bytes⟩ := e
  obtain ⟨byte, order, rfl⟩ := List.exists_cons_of_ne_nil h.ne_nil
  have hcurrent : used[current]? = some byte := h.current
  unfold Expansion.flush
  by_cases hrun : run = 0
  · simp only [if_pos hrun]
    exact ⟨_, rfl, h, rfl, rfl, hrun, h.idle hrun, by simp [hrun]⟩
  · simp only [if_neg hrun, hcurrent]
    refine ⟨_, rfl, ⟨h.ne_nil, h.recents, h.length_eq, h.current, fun _ => rfl, Nat.one_pos, ?_, ?_⟩,
      rfl, rfl, rfl, rfl, toList_pushCopies _ _ _⟩
    · simp only [Array.size_modify]
      exact h.size_counts
    · intro other
      rw [toList_pushCopies]
      exact counts_modify h.counts byte run other

theorem Holds.append (h : e.Holds order) {byte : UInt8} (hbyte : order[position]? = some byte)
    (hlimit : e.bytes.size + 1 ≤ e.limit) :
    ∃ after, e.append position = .ok false after ∧ after.Holds (byte :: order.eraseIdx position) ∧
      after.limit = e.limit ∧ after.used = e.used ∧ after.run = e.run ∧
      after.weight = e.weight ∧ after.bytes.toList = e.bytes.toList ++ [byte] := by
  obtain ⟨place, hplace, hused⟩ := h.recents position byte hbyte
  obtain ⟨limit, used, recents, current, run, weight, counts, bytes⟩ := e
  obtain ⟨hlength, hget⟩ := List.getElem?_eq_some_iff.1 hplace
  obtain ⟨next, htake, hnext⟩ := recents.take?_eq_some position hlength
  rw [hget] at htake hnext
  have hfits : ¬ limit < bytes.size + 1 := Nat.not_lt.2 hlimit
  refine ⟨⟨limit, used, next, place.toNat, run, weight, counts.modify byte.toNat (· + 1),
    bytes.push byte⟩, ?_, ?_, rfl, rfl, rfl, rfl, Array.toList_push⟩
  · simp only at hused
    simp only [Expansion.append, if_neg hfits, htake, hused]
  refine ⟨List.cons_ne_nil _ _, ?_, ?_, hused, h.idle, h.weight_pos, ?_, ?_⟩
  · intro i other hother
    simp only [hnext]
    cases i with
    | zero =>
      obtain rfl : byte = other := by simpa using hother
      exact ⟨place, rfl, hused⟩
    | succ i =>
      rw [List.getElem?_cons_succ, List.getElem?_eraseIdx] at hother ⊢
      split at hother
      · rw [if_pos ‹_›]
        exact h.recents i other hother
      · rw [if_neg ‹_›]
        exact h.recents (i + 1) other hother
  · have hposition := (List.getElem?_eq_some_iff.1 hbyte).1
    rw [List.length_cons, List.length_eraseIdx_of_lt hposition, Nat.sub_add_cancel (by omega)]
    exact h.length_eq
  · simp only [Array.size_modify]
    exact h.size_counts
  · intro other
    rw [Array.toList_push]
    exact counts_modify h.counts byte 1 other

theorem Holds.count (h : e.Holds order) {copies : Nat}
    (hlimit : e.bytes.size + (e.run + copies) ≤ e.limit) (hcopies : 0 < copies) :
    e.count copies = .ok false { e with run := e.run + copies, weight := 2 * e.weight } ∧
      Holds { e with run := e.run + copies, weight := 2 * e.weight } order := by
  obtain ⟨limit, used, recents, current, run, weight, counts, bytes⟩ := e
  refine ⟨?_, h.ne_nil, h.recents, h.length_eq, h.current, fun hidle => ?_,
    Nat.mul_pos Nat.two_pos h.weight_pos, h.size_counts, h.counts⟩
  · have hfits : ¬ limit < bytes.size + (run + copies) := Nat.not_lt.2 hlimit
    simp only [Expansion.count, if_neg hfits]
  · simp only at hidle
    omega

/-- Before and after a token the expansion has given and will give the same bytes. -/
theorem Holds.accept (h : e.Holds order) {token : Token}
    (htoken : ∀ position, token = .recent position → position < order.length)
    (hfinish : token ≠ .finish)
    (hlimit : e.bytes.size + (Token.expandFrom order e.run e.weight [token]).length ≤ e.limit) :
    ∃ after order', e.accept token = .ok false after ∧ after.Holds order' ∧
      after.limit = e.limit ∧ after.used = e.used ∧ after.bytes.size + after.run ≤ e.limit ∧
      ∀ rest, after.bytes.toList ++ Token.expandFrom order' after.run after.weight rest =
        e.bytes.toList ++ Token.expandFrom order e.run e.weight (token :: rest) := by
  cases token with
  | runA =>
    have hrun : e.bytes.size + (e.run + e.weight) ≤ e.limit := by
      simpa [Token.expandFrom] using hlimit
    obtain ⟨hcount, hafter⟩ := h.count hrun h.weight_pos
    exact ⟨_, order, hcount, hafter, rfl, rfl, hrun, fun _ => rfl⟩
  | runB =>
    have hrun : e.bytes.size + (e.run + 2 * e.weight) ≤ e.limit := by
      simpa [Token.expandFrom] using hlimit
    obtain ⟨hcount, hafter⟩ := h.count hrun (Nat.mul_pos Nat.two_pos h.weight_pos)
    exact ⟨_, order, hcount, hafter, rfl, rfl, hrun, fun _ => rfl⟩
  | recent position =>
    have hlt := htoken position rfl
    have hbyte := List.getElem?_eq_getElem hlt
    have hfits : e.bytes.size + (e.run + 1) ≤ e.limit := by
      simpa [Token.expandFrom, hbyte] using hlimit
    obtain ⟨mid, hflush, hmid, hmlimit, hmused, hmrun, hmweight, hmbytes⟩ := h.flush
    have hsize := congrArg List.length hmbytes
    simp only [List.length_append, List.length_replicate, Array.length_toList] at hsize
    obtain ⟨after, happend, hafter, halimit, haused, harun, haweight, habytes⟩ :=
      hmid.append hbyte (by omega)
    have hasize := congrArg List.length habytes
    simp only [List.length_append, List.length_singleton, Array.length_toList] at hasize
    refine ⟨after, _, ?_, hafter, halimit.trans hmlimit, haused.trans hmused, by omega, fun rest => ?_⟩
    · simp only [Expansion.accept, hflush, happend]
    · rw [habytes, hmbytes, harun, hmrun, haweight, hmweight, Token.expandFrom, hbyte]
      simp
  | finish => exact absurd rfl hfinish

/-- A token that is accepted fits in the block. -/
theorem Holds.fits_of_accept (h : e.Holds order) {token : Token} {done : Bool} {after : Expansion}
    (hfinish : token ≠ .finish) (haccept : e.accept token = .ok done after) :
    e.bytes.size + (Token.expandFrom order e.run e.weight [token]).length ≤ e.limit := by
  have hcount (copies : Nat) (hok : e.count copies = .ok done after) :
      e.bytes.size + (e.run + copies) ≤ e.limit := by
    unfold Expansion.count at hok
    simp only at hok
    split at hok
    · cases hok
    · omega
  cases token with
  | runA => simpa [Token.expandFrom] using hcount _ haccept
  | runB => simpa [Token.expandFrom] using hcount _ haccept
  | recent position =>
    obtain ⟨mid, hflush, -, hmlimit, -, -, -, hmbytes⟩ := h.flush
    have hsize := congrArg List.length hmbytes
    simp only [List.length_append, List.length_replicate, Array.length_toList] at hsize
    have hfits : mid.bytes.size + 1 ≤ mid.limit := by
      simp only [Expansion.accept, hflush] at haccept
      unfold Expansion.append at haccept
      simp only at haccept
      split at haccept
      · cases haccept
      · omega
    have hone : (Token.expandFrom order e.run e.weight [.recent position]).length ≤ e.run + 1 := by
      rw [Token.expandFrom, List.length_append, List.length_replicate]
      split <;> simp [Token.expandFrom]
    omega
  | finish => exact absurd rfl hfinish

theorem Holds.accept_finish (h : e.Holds order) (rest : List Token) :
    ∃ after, e.accept .finish = .ok true after ∧ after.Holds order ∧
      after.bytes.toList =
        e.bytes.toList ++ Token.expandFrom order e.run e.weight (.finish :: rest) := by
  obtain ⟨after, hflush, hafter, -, -, -, -, hbytes⟩ := h.flush
  refine ⟨after, ?_, hafter, hbytes⟩
  simp only [Expansion.accept, hflush]

end Expansion

end Bunzip.Block
