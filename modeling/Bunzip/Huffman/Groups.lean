import Bunzip.Huffman.Setup

/-!
# Symbols by counters

A `Decoder` knows the group of a symbol from the number of symbols given. A `GroupDecoder` counts
its way instead: it keeps the table of the group it is in and the number of groups begun, moves both
on at the first symbol of a group, and counts the symbol before it is read, so that they have moved
even if the symbol is at fault.
-/

namespace Bunzip.Huffman

/-- Stores selectors one after the other, each given as a position in the list of recent tables. -/
def Setup.setSelectors (setup : Setup) (index : Nat) : List Nat → Except Fault Setup
  | [] => .ok setup
  | position :: positions => do
    (← setup.setSelector index position).setSelectors (index + 1) positions

/-- The tables of a block and the counters of its groups. -/
structure GroupDecoder where
  tables : Array Table
  /-- The table of each group. -/
  selectors : Array Nat
  /-- The table of the group begun last. -/
  current : Nat
  /-- The number of groups begun. -/
  group : Nat
  /-- The number of symbols begun. -/
  position : Nat
deriving Repr, DecidableEq, Inhabited

/-- The counters at the first symbol. -/
def Decoder.grouped (d : Decoder) : GroupDecoder := ⟨d.tables, d.selectors, 0, 0, 0⟩

namespace GroupDecoder

/-- Begins a group if the last one is full; none if there is no selector for it. -/
def switch (g : GroupDecoder) : Option GroupDecoder :=
  if g.position % Format.groupSize = 0 then
    match g.selectors[g.group]? with
    | none => none
    | some selector => some ⟨g.tables, g.selectors, selector, g.group + 1, g.position⟩
  else some g

/-- The next symbol, or a fault, and the counters after it. -/
def next (g : GroupDecoder) (r : BitReader) : EStateM.Result Fault BitReader Nat × GroupDecoder :=
  match g.switch with
  | none => (Scan.fail .selectorsExhausted r, g)
  | some ⟨tables, selectors, current, group, position⟩ =>
    let result := match tables[current]? with
      | none => Scan.fail (.invalidCode .noTable) r
      | some table => table.decode r
    (result, ⟨tables, selectors, current, group, position + 1⟩)

/-- The counters after a call with each of these readers. -/
def after (g : GroupDecoder) (readers : List BitReader) : GroupDecoder :=
  readers.foldl (fun g r => (g.next r).2) g

end GroupDecoder

end Bunzip.Huffman
