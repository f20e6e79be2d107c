import Bunzip.Proofs.Huffman.Search

/-!
# Kraft's inequality

Kraft's inequality leaves a code word for each symbol (`codeWord?_of_fits`): counted in words of the
greatest length, the words of a length end where the shares of all symbols up to this length add up
to (`endWord_mul_eq`). No code word begins another one, whether the inequality holds or not
(`begins_of_codeWord?`).
-/

namespace Bunzip.Huffman.Canonical

variable {lengths : List Nat} {length symbol : Nat} {word : List Bool}

/-- The shares of the symbols whose words are not longer than `length`. -/
def kraftSumTo (lengths : List Nat) (length : Nat) : Nat :=
  kraftSum (lengths.filter (· ≤ length))

theorem kraftSum_cons (l : Nat) (lengths : List Nat) :
    kraftSum (l :: lengths) = 2 ^ (20 - l) + kraftSum lengths := rfl

theorem kraftSumTo_cons (l : Nat) (lengths : List Nat) (length : Nat) :
    kraftSumTo (l :: lengths) length =
      (if l ≤ length then 2 ^ (20 - l) else 0) + kraftSumTo lengths length := by
  unfold kraftSumTo
  rw [List.filter_cons]
  by_cases hle : l ≤ length
  · rw [if_pos (by simpa using hle), if_pos hle, kraftSum_cons]
  · rw [if_neg (by simpa using hle), if_neg hle, Nat.zero_add]

theorem kraftSumTo_zero (lengths : List Nat) :
    kraftSumTo lengths 0 = lengths.count 0 * 2 ^ 20 := by
  induction lengths with
  | nil => rfl
  | cons l lengths ih =>
    rw [kraftSumTo_cons, ih, List.count_cons]
    by_cases heq : l = 0
    · rw [heq, if_pos (Nat.le_refl 0), if_pos (by rfl), Nat.add_mul]
      omega
    · rw [if_neg (by omega), if_neg (by simpa using heq), Nat.add_zero, Nat.zero_add]

theorem kraftSumTo_succ (lengths : List Nat) (length : Nat) :
    kraftSumTo lengths (length + 1) =
      kraftSumTo lengths length + lengths.count (length + 1) * 2 ^ (20 - (length + 1)) := by
  induction lengths with
  | nil => simp [kraftSumTo, kraftSum]
  | cons l lengths ih =>
    rw [kraftSumTo_cons, kraftSumTo_cons, ih, List.count_cons]
    by_cases hle : l ≤ length
    · rw [if_pos (by omega), if_pos hle, if_neg (by simp; omega), Nat.add_assoc]
      rfl
    · by_cases heq : l = length + 1
      · rw [heq, if_pos (Nat.le_refl _), if_neg (by omega), if_pos (by simp), Nat.add_mul]
        omega
      · rw [if_neg (by omega), if_neg hle, if_neg (by simpa using heq), Nat.add_assoc]
        rfl

theorem kraftSumTo_le (lengths : List Nat) (length : Nat) :
    kraftSumTo lengths length ≤ kraftSum lengths := by
  induction lengths with
  | nil => exact Nat.le_refl _
  | cons l lengths ih =>
    have hle : (if l ≤ length then 2 ^ (20 - l) else 0) ≤ 2 ^ (20 - l) := by
      split
      · exact Nat.le_refl _
      · exact Nat.zero_le _
    rw [kraftSumTo_cons, kraftSum_cons]
    exact Nat.add_le_add hle ih

/-- The end of a row, in words of the greatest length. -/
theorem endWord_mul_eq (lengths : List Nat) (h : length ≤ 20) :
    endWord lengths length * 2 ^ (20 - length) = kraftSumTo lengths length := by
  induction length with
  | zero => rw [kraftSumTo_zero, endWord, firstWord, Nat.zero_add]
  | succ length ih =>
    have hpow : 2 ^ (20 - length) = 2 * 2 ^ (20 - (length + 1)) := by
      rw [show 20 - length = 20 - (length + 1) + 1 by omega, Nat.pow_succ, Nat.mul_comm]
    rw [kraftSumTo_succ, ← ih (by omega), hpow, endWord, firstWord_succ, Nat.add_mul,
      Nat.mul_left_comm, Nat.mul_assoc]

theorem endWord_le (h : Fits lengths) (hlength : length ≤ 20) :
    endWord lengths length ≤ 2 ^ length := by
  have hsum := endWord_mul_eq lengths hlength
  have hle := Nat.le_trans (kraftSumTo_le lengths length) h
  have hpow : 2 ^ 20 = 2 ^ length * 2 ^ (20 - length) := by
    rw [← Nat.pow_add, Nat.add_sub_cancel' hlength]
  rw [← hsum, hpow] at hle
  exact Nat.le_of_mul_le_mul_right hle (Nat.two_pow_pos _)

/-- There is room for the word of each symbol. -/
theorem codeWord?_of_fits (h : Fits lengths) (hsymbol : lengths[symbol]? = some length)
    (hlength : length ≤ 20) : ∃ word, codeWord? lengths symbol = some word := by
  have hend := endWord_le h hlength
  have hrank := rank_lt_count hsymbol
  unfold endWord at hend
  refine ⟨Bits.ofNat length (firstWord lengths length + (lengths.take symbol).count length), ?_⟩
  unfold codeWord?
  simp only [hsymbol]
  rw [if_pos (by omega)]

/-- A code word begins with no shorter one. -/
theorem begins_of_codeWord? (h : codeWord? lengths symbol = some word) :
    Begins lengths word symbol := by
  refine ⟨word, h, List.prefix_rfl, fun other shorter hother hprefix => ?_⟩
  refine Nat.le_of_not_lt fun hlt => ?_
  have habove := Table.endWord_le_value_take h hlt
  rw [← List.prefix_iff_eq_take.1 hprefix, value_of_codeWord? hother, endWord] at habove
  have hrank := rank_lt_count (length_of_codeWord? hother)
  omega

/-- Bits begin with the code word of one symbol only. -/
theorem eq_of_prefix {bits front : List Bool} {other : Nat}
    (hword : codeWord? lengths symbol = some word) (hfront : codeWord? lengths other = some front)
    (hbegins : word <+: bits) (hbegins' : front <+: bits) : symbol = other := by
  have hlength : word.length = front.length := by
    rcases Nat.le_total word.length front.length with hle | hle
    · obtain ⟨_, hown, -, hleast⟩ := begins_of_codeWord? hfront
      rw [hfront] at hown
      cases hown
      exact Nat.le_antisymm hle (hleast symbol word hword
        (List.prefix_of_prefix_length_le hbegins hbegins' hle))
    · obtain ⟨_, hown, -, hleast⟩ := begins_of_codeWord? hword
      rw [hword] at hown
      cases hown
      exact Nat.le_antisymm (hleast other front hfront
        (List.prefix_of_prefix_length_le hbegins' hbegins hle)) hle
  obtain rfl : word = front :=
    (List.prefix_of_prefix_length_le hbegins hbegins' (Nat.le_of_eq hlength)).eq_of_length hlength
  have hvalue := value_of_codeWord? hword
  rw [value_of_codeWord? hfront] at hvalue
  have hplace := Table.getElem?_symbolsOfLength (length_of_codeWord? hword)
  rw [← Nat.add_left_cancel hvalue,
    Table.getElem?_symbolsOfLength (length_of_codeWord? hfront)] at hplace
  exact (Option.some.inj hplace).symm

end Bunzip.Huffman.Canonical
