import Bunzip.Huffman.Table

/-!
# Symbols from groups

A block has several tables and a list of selectors; each selector names the table of the next group
of fifty symbols. A `Decoder` counts the symbols it has given, and with them knows the group.
-/

namespace Bunzip.Huffman

/-- The tables of a block and the place in its symbols. -/
structure Decoder where
  tables : Array Table
  /-- The table of each group. -/
  selectors : Array Nat
  /-- The number of symbols given. -/
  position : Nat
deriving Repr, DecidableEq, Inhabited

namespace Decoder

/-- The next symbol, from the table of its group. -/
def next (d : Decoder) : Scan (Nat × Decoder) :=
  match d.selectors[d.position / Format.groupSize]? with
  | none => Scan.fail .selectorsExhausted
  | some selector =>
    match d.tables[selector]? with
    | none => Scan.fail (.invalidCode .noTable)
    | some table => do
      let symbol ← table.decode
      return (symbol, ⟨d.tables, d.selectors, d.position + 1⟩)

/-- How many symbols the selectors still allow. -/
def budget (d : Decoder) : Nat := Format.groupSize * d.selectors.size - d.position

/-- The outcome of reading several symbols. -/
structure Symbols where
  given : Array Nat
  /-- The fault that ended them. -/
  fault : Option Fault
  reader : BitReader

/-- Up to `limit` more symbols, after those `given`, for as long as a longest search has its
bits. -/
def symbols : (limit : Nat) → Decoder → BitReader → (given : Array Nat) → Symbols
  | 0, _, r, given => ⟨given, none, r⟩
  | limit + 1, d, r, given =>
    if r.hasBits Format.maxSearch then
      match d.next r with
      | .error fault r => ⟨given, some fault, r⟩
      | .ok (symbol, d) r => symbols limit d r (given.push symbol)
    else ⟨given, none, r⟩

/-! ## Progress -/

/-- A symbol uses up some of the budget and gives no bits back. -/
theorem next_eq_ok {d : Decoder} {r after : BitReader} {symbol : Nat} {d' : Decoder}
    (h : d.next r = .ok (symbol, d') after) :
    d'.budget < d.budget ∧ d'.tables = d.tables ∧ d'.selectors = d.selectors ∧
      d'.position = d.position + 1 ∧ after.bits.length ≤ r.bits.length := by
  unfold next at h
  cases hselector : d.selectors[d.position / Format.groupSize]? with
  | none => simp only [hselector] at h; cases h
  | some selector =>
    cases htable : d.tables[selector]? with
    | none => simp only [hselector, htable] at h; cases h
    | some table =>
      simp only [hselector, htable] at h
      have hspent := ((Table.spends_decode table).bind fun symbol =>
        Scan.spends_pure (symbol, (⟨d.tables, d.selectors, d.position + 1⟩ : Decoder))) r _ _ h
      have hlt : d.position / Format.groupSize < d.selectors.size :=
        (Array.getElem?_eq_some_iff.1 hselector).1
      change EStateM.bind table.decode _ r = _ at h
      rw [EStateM.bind] at h
      split at h
      · injection h with hvalue _
        injection hvalue with _ hd
        subst hd
        refine ⟨?_, rfl, rfl, rfl, by omega⟩
        unfold budget Format.groupSize at *
        simp only
        omega
      · cases h

end Decoder

end Bunzip.Huffman
