import Bunzip.Block.Expansion

/-!
# Token sequences

What a whole sequence of tokens says. A maximal sequence of run digits is a number in base two with
the digits 1 and 2, lowest digit first, of copies of the byte used last; another token names a byte
by its position among the recent ones. `expand` reads a sequence in this way and `ofBytes` writes
one.
-/

namespace Bunzip.Block

namespace Token

def isDigit : Token → Bool
  | .runA | .runB => true
  | _ => false

/-- The symbol of a token in a block that uses a number of bytes. -/
def symbol (used : Nat) : Token → Nat
  | .runA => 0
  | .runB => 1
  | .recent position => position + 1
  | .finish => used + 1

/-- The number that run digits write, lowest digit first. -/
def runValue : List Token → Nat
  | .runA :: digits => 1 + 2 * runValue digits
  | .runB :: digits => 2 + 2 * runValue digits
  | _ => 0

def runDigits : Nat → List Token
  | 0 => []
  | n + 1 => if n % 2 = 0 then .runA :: runDigits (n / 2) else .runB :: runDigits (n / 2)
decreasing_by all_goals omega

/-- The bytes that a token sequence writes, when the recent bytes are `order`. It ends with the
first token that is neither a digit nor the position of a byte. -/
def expand (order : List UInt8) (tokens : List Token) : List UInt8 :=
  List.replicate (runValue (tokens.takeWhile isDigit)) (order.headD 0) ++
    match _h : tokens.dropWhile isDigit with
    | .recent position :: rest =>
      match order[position]? with
      | some byte => byte :: expand (byte :: order.eraseIdx position) rest
      | none => []
    | _ => []
termination_by tokens.length
decreasing_by
  have := congrArg List.length _h
  have := (List.dropWhile_suffix isDigit (l := tokens)).length_le
  simp only [List.length_cons] at *
  omega

/-- The tokens of positions among the recent bytes, after `copies` zeros: zeros are counted, and the
end is marked. -/
def ofPositions (copies : Nat) : List Nat → List Token
  | [] => runDigits copies ++ [.finish]
  | 0 :: rest => ofPositions (copies + 1) rest
  | position :: rest => runDigits copies ++ .recent position :: ofPositions 0 rest

/-- The tokens of a byte sequence, when the recent bytes are `order`. -/
def ofBytes (order bytes : List UInt8) : List Token :=
  ofPositions 0 (MoveToFront.encode order bytes)

/-! ## Digits and symbols -/

theorem runValue_runDigits (n : Nat) : runValue (runDigits n) = n := by
  induction n using Nat.strongRecOn with
  | ind n ih =>
    match n with
    | 0 => simp [runDigits, runValue]
    | n + 1 =>
      have := ih (n / 2) (by omega)
      rw [runDigits]
      split <;> simp only [runValue, this] <;> omega

theorem isDigit_of_mem_runDigits {n : Nat} {token : Token} (h : token ∈ runDigits n) :
    token.isDigit = true := by
  induction n using Nat.strongRecOn with
  | ind n ih =>
    match n with
    | 0 => simp [runDigits] at h
    | n + 1 =>
      rw [runDigits] at h
      split at h <;> rcases List.mem_cons.1 h with rfl | h <;>
        first | rfl | exact ih (n / 2) (by omega) h

theorem ofSymbol_symbol {used : Nat} {token : Token}
    (h : ∀ position, token = .recent position → 0 < position ∧ position < used) (hused : 0 < used) :
    ofSymbol used (token.symbol used) = token := by
  match token with
  | .runA => rfl
  | .runB => rfl
  | .finish =>
    match used with
    | 0 => omega
    | n + 1 => simp [symbol, ofSymbol]
  | .recent position =>
    have := h position rfl
    match position with
    | 0 => omega
    | p + 1 => simp [symbol, ofSymbol]; omega

end Token

end Bunzip.Block
