import Bunzip.Bits

/-!
# Canonical code words

The code words that a list of code lengths defines, symbol by symbol: in the order of length and
then of symbol they are consecutive numbers, doubled from one length to the next. A number too large
for its length is no code word. `Table` reads these words without writing them down.
-/

namespace Bunzip.Huffman.Canonical

/-- The first code word of a length, as a number. -/
def firstWord (lengths : List Nat) : Nat → Nat
  | 0 => 0
  | length + 1 => 2 * (firstWord lengths length + lengths.count length)

/-- The code word of a symbol, if it has one. -/
def codeWord? (lengths : List Nat) (symbol : Nat) : Option (List Bool) :=
  match lengths[symbol]? with
  | none => none
  | some length =>
    let word := firstWord lengths length + (lengths.take symbol).count length
    if word < 2 ^ length then some (Bits.ofNat length word) else none

/-- The code words of a list of symbols; a symbol without one is left out. -/
def encode (lengths : List Nat) (symbols : List Nat) : List Bool :=
  symbols.flatMap fun symbol => (codeWord? lengths symbol).getD []

/-- A bit string begins with the code word of a symbol, and with no shorter code word. -/
def Begins (lengths : List Nat) (bits : List Bool) (symbol : Nat) : Prop :=
  ∃ word, codeWord? lengths symbol = some word ∧ word <+: bits ∧
    ∀ other shorter, codeWord? lengths other = some shorter → shorter <+: bits →
      word.length ≤ shorter.length

/-- The sum of `2 ^ (-length)` over the symbols, in units of `2 ^ (-20)`. -/
def kraftSum : (lengths : List Nat) → Nat
  | [] => 0
  | length :: rest => 2 ^ (20 - length) + kraftSum rest

/-- Kraft's inequality: there is room for a code in which no word begins another. -/
def Fits (lengths : List Nat) : Prop := kraftSum lengths ≤ 2 ^ 20

/-- Kraft's inequality with equality: each bit string begins with a code word. -/
def Complete (lengths : List Nat) : Prop := kraftSum lengths = 2 ^ 20

instance (lengths : List Nat) : Decidable (Fits lengths) :=
  inferInstanceAs (Decidable (_ ≤ _))

instance (lengths : List Nat) : Decidable (Complete lengths) :=
  inferInstanceAs (Decidable (_ = _))

/-! ## Lengths of code words -/

theorem length_of_codeWord? {lengths : List Nat} {symbol : Nat} {word : List Bool}
    (h : codeWord? lengths symbol = some word) : lengths[symbol]? = some word.length := by
  unfold codeWord? at h
  split at h
  · cases h
  · rename_i length hlength
    simp only at h
    split at h
    · cases h; simpa using hlength
    · cases h

end Bunzip.Huffman.Canonical
