import Bunzip.Proofs.Block.Expansion
import Bunzip.Proofs.MoveToFront

/-!
# Written tokens

The tokens that are written for a byte sequence say it (`Token.expand_ofBytes`): digits and the
positions of bytes that are not the last ones used, and the end behind them
(`Token.ofPositions_eq`). Nothing is lost where they are written as symbols
(`Token.expand_symbols`).
-/

namespace Bunzip.Block.Token

variable {order bytes : List UInt8}

/-! ## Digits -/

theorem length_runDigits_le (n : Nat) : (runDigits n).length ≤ n := by
  induction n using Nat.strongRecOn with
  | ind n ih =>
    match n with
    | 0 => simp [runDigits]
    | n + 1 =>
      have := ih (n / 2) (by omega)
      rw [runDigits]
      split <;> rw [List.length_cons] <;> omega

theorem expandFrom_runDigits (order : List UInt8) (n : Nat) (rest : List Token) :
    ∃ weight, expandFrom order 0 1 (runDigits n ++ rest) = expandFrom order n weight rest := by
  refine ⟨1 * 2 ^ (runDigits n).length, ?_⟩
  rw [expandFrom_digits order 0 1 _ rest fun digit hdigit => isDigit_of_mem_runDigits hdigit,
    runValue_runDigits, Nat.zero_add, Nat.one_mul]

/-! ## Positions -/

theorem ofPositions_zero (copies : Nat) (positions : List Nat) :
    ofPositions copies (0 :: positions) = ofPositions (copies + 1) positions := rfl

theorem ofPositions_pos (copies : Nat) {position : Nat} (positions : List Nat)
    (h : 0 < position) : ofPositions copies (position :: positions) =
      runDigits copies ++ .recent position :: ofPositions 0 positions := by
  obtain ⟨n, rfl⟩ : ∃ n, position = n + 1 := ⟨position - 1, by omega⟩
  rfl

/-- What tokens are written, and how many. -/
theorem ofPositions_eq (copies : Nat) (positions : List Nat) :
    ∃ front, ofPositions copies positions = front ++ [.finish] ∧
      front.length ≤ copies + positions.length ∧
      ∀ token ∈ front, token.isDigit = true ∨
        ∃ position ∈ positions, 0 < position ∧ token = .recent position := by
  have hdigits (n : Nat) := length_runDigits_le n
  induction positions generalizing copies with
  | nil =>
    exact ⟨runDigits copies, rfl, hdigits copies, fun token htoken =>
      .inl (isDigit_of_mem_runDigits htoken)⟩
  | cons position positions ih =>
    rcases Nat.eq_zero_or_pos position with rfl | hpos
    · obtain ⟨front, heq, hlength, hfront⟩ := ih (copies + 1)
      refine ⟨front, (ofPositions_zero copies positions).trans heq, ?_, fun token htoken => ?_⟩
      · rw [List.length_cons]
        omega
      · rcases hfront token htoken with hdigit | ⟨other, hother, hrest⟩
        · exact .inl hdigit
        · exact .inr ⟨other, List.mem_cons_of_mem _ hother, hrest⟩
    · obtain ⟨front, heq, hlength, hfront⟩ := ih 0
      refine ⟨runDigits copies ++ .recent position :: front, ?_, ?_, fun token htoken => ?_⟩
      · rw [ofPositions_pos copies positions hpos, heq, List.append_assoc, List.cons_append]
      · have := hdigits copies
        rw [List.length_append, List.length_cons, List.length_cons]
        omega
      · rcases List.mem_append.1 htoken with hdigit | htoken
        · exact .inl (isDigit_of_mem_runDigits hdigit)
        rcases List.mem_cons.1 htoken with rfl | htoken
        · exact .inr ⟨position, List.mem_cons_self, hpos, rfl⟩
        rcases hfront token htoken with hdigit | ⟨other, hother, hrest⟩
        · exact .inl hdigit
        · exact .inr ⟨other, List.mem_cons_of_mem _ hother, hrest⟩

/-! ## Bytes -/

/-- Behind copies of the byte used last, the tokens of a byte sequence say it. -/
theorem expand_ofPositions (copies : Nat) (h : ∀ byte ∈ bytes, byte ∈ order) :
    expand order (ofPositions copies (MoveToFront.encode order bytes)) =
      List.replicate copies (order.headD 0) ++ bytes := by
  induction bytes generalizing copies order with
  | nil =>
    obtain ⟨weight, hdigits⟩ := expandFrom_runDigits order copies [.finish]
    rw [← expandFrom_eq_expand, MoveToFront.encode, ofPositions, hdigits, List.append_nil]
    rfl
  | cons byte bytes ih =>
    have hmem := h byte List.mem_cons_self
    have hlt := List.idxOf_lt_length_of_mem hmem
    have hget : order[order.idxOf byte]? = some byte := by
      rw [List.getElem?_eq_getElem hlt, List.getElem_idxOf]
    have hrest : ∀ other ∈ bytes, other ∈ byte :: order.eraseIdx (order.idxOf byte) :=
      fun other hother => MoveToFront.mem_move (h other (List.mem_cons_of_mem _ hother))
    rw [MoveToFront.encode]
    rcases Nat.eq_zero_or_pos (order.idxOf byte) with hzero | hpos
    · -- the byte used last is counted, and the table stays as it is
      obtain ⟨first, others, rfl⟩ := List.exists_cons_of_ne_nil (List.ne_nil_of_mem hmem)
      rw [hzero] at hget hrest ⊢
      obtain rfl : first = byte := Option.some.inj hget
      rw [List.eraseIdx_cons_zero] at hrest ⊢
      rw [ofPositions_zero, ih (copies + 1) hrest, List.headD_cons, List.replicate_succ',
        List.append_assoc, List.singleton_append]
    · obtain ⟨weight, hdigits⟩ := expandFrom_runDigits order copies
        (.recent (order.idxOf byte) :: ofPositions 0
          (MoveToFront.encode (byte :: order.eraseIdx (order.idxOf byte)) bytes))
      rw [ofPositions_pos copies _ hpos, ← expandFrom_eq_expand, hdigits, expandFrom, hget]
      simp only
      rw [expandFrom_eq_expand, ih 0 hrest, List.replicate_zero, List.nil_append]

/-- Tokens undo themselves. -/
theorem expand_ofBytes (h : ∀ byte ∈ bytes, byte ∈ order) :
    expand order (ofBytes order bytes) = bytes := by
  rw [ofBytes, expand_ofPositions 0 h, List.replicate_zero, List.nil_append]

/-! ## Symbols -/

theorem ofBytes_eq (h : ∀ byte ∈ bytes, byte ∈ order) :
    ∃ front, ofBytes order bytes = front ++ [.finish] ∧ front.length ≤ bytes.length ∧
      ∀ token ∈ front, token.isDigit = true ∨
        ∃ position, 0 < position ∧ position < order.length ∧ token = .recent position := by
  obtain ⟨front, heq, hlength, hfront⟩ := ofPositions_eq 0 (MoveToFront.encode order bytes)
  rw [Nat.zero_add, MoveToFront.length_encode] at hlength
  refine ⟨front, heq, hlength, fun token htoken => ?_⟩
  rcases hfront token htoken with hdigit | ⟨position, hposition, hpos, hrecent⟩
  · exact .inl hdigit
  · exact .inr ⟨position, hpos, MoveToFront.lt_of_mem_encode h hposition, hrecent⟩

/-- The symbols of a byte sequence end with the end symbol, and have it nowhere else. -/
theorem symbols_ofBytes (horder : order ≠ []) (h : ∀ byte ∈ bytes, byte ∈ order) :
    ∃ front, (ofBytes order bytes).map (symbol order.length) = front ++ [order.length + 1] ∧
      front.length ≤ bytes.length ∧ ∀ symbol ∈ front, symbol ≤ order.length := by
  have hpos := List.length_pos_iff.2 horder
  obtain ⟨front, heq, hlength, hfront⟩ := ofBytes_eq h
  refine ⟨front.map (symbol order.length), ?_, by rwa [List.length_map], ?_⟩
  · rw [heq, List.map_append, List.map_singleton, symbol]
  · intro other hother
    obtain ⟨token, htoken, rfl⟩ := List.mem_map.1 hother
    rcases hfront token htoken with hdigit | ⟨position, -, hlt, rfl⟩
    · cases token with
      | runA => exact Nat.zero_le _
      | runB => exact hpos
      | recent => cases hdigit
      | finish => cases hdigit
    · exact hlt

/-- The symbols of a byte sequence say it. -/
theorem expand_symbols (horder : order ≠ []) (h : ∀ byte ∈ bytes, byte ∈ order) :
    expand order (((ofBytes order bytes).map (symbol order.length)).map
      (ofSymbol order.length)) = bytes := by
  obtain ⟨front, heq, -, hfront⟩ := ofBytes_eq h
  have hrecent : ∀ token ∈ ofBytes order bytes, ∀ position, token = .recent position →
      0 < position ∧ position < order.length := by
    intro token htoken position htokenEq
    rw [heq, List.mem_append, List.mem_singleton] at htoken
    rcases htoken with htoken | rfl
    · rcases hfront token htoken with hdigit | ⟨other, hpos, hlt, hother⟩
      · rw [htokenEq] at hdigit
        cases hdigit
      · rw [htokenEq] at hother
        cases hother
        exact ⟨hpos, hlt⟩
    · cases htokenEq
  have htokens : ((ofBytes order bytes).map (symbol order.length)).map (ofSymbol order.length) =
      ofBytes order bytes := by
    rw [List.map_map]
    exact (List.map_congr_left fun token htoken =>
      ofSymbol_symbol (hrecent token htoken) (List.length_pos_iff.2 horder)).trans (List.map_id _)
  rw [htokens]
  exact expand_ofBytes h

end Bunzip.Block.Token
