import Bunzip.Huffman.Decoder
import Bunzip.Proofs.Huffman.Search

/-!
# Symbols of a block

A decoder reads each code word from the table of its group (`Decoder.reads_next`), and so the
symbols of a whole payload from their words one after the other (`Decoder.serves_words`).
-/

namespace Bunzip.Huffman

open Scan Canonical

/-- A code word is read from the table of its group. -/
theorem Decoder.reads_next {d : Decoder} {table symbol : Nat} {lengths : List Nat}
    {word : List Bool} (hselector : d.selectors[d.position / Format.groupSize]? = some table)
    (htable : d.tables[table]? = some (Table.ofLengths lengths))
    (hword : codeWord? lengths symbol = some word) (hlength : word.length ≤ Format.maxSearch) :
    Reads d.next word (symbol, ⟨d.tables, d.selectors, d.position + 1⟩) := by
  simp only [next, hselector, htable]
  exact (Table.reads_decode hword hlength).first (reads_pure _)

/-- The decoder reads these symbols from these bits. -/
def Decoder.Serves (d : Decoder) : List Nat → List Bool → Prop
  | [], bits => bits = []
  | symbol :: rest, bits => ∃ word back after, bits = word ++ back ∧
    Reads d.next word (symbol, after) ∧ after.Serves rest back

/-- The code words of some symbols, the first of them with a given index, where the code lengths for
each index are known. -/
def words (lengthsAt : Nat → List Nat) (index : Nat) (symbols : List Nat) : List Bool :=
  (symbols.zipIdx index).flatMap fun (symbol, index) =>
    (codeWord? (lengthsAt index) symbol).getD []

/-- Symbols are read from their code words if the selectors name the right tables. -/
theorem Decoder.serves_words {tables : Array Table} {selectors : Array Nat} {index : Nat}
    {symbols : List Nat} {lengthsAt : Nat → List Nat}
    (h : ∀ symbol i, (symbol, i) ∈ symbols.zipIdx index → ∃ table word,
      selectors[i / Format.groupSize]? = some table ∧
      tables[table]? = some (Table.ofLengths (lengthsAt i)) ∧
      codeWord? (lengthsAt i) symbol = some word ∧ word.length ≤ Format.maxSearch) :
    Serves ⟨tables, selectors, index⟩ symbols (words lengthsAt index symbols) := by
  induction symbols generalizing index with
  | nil => rfl
  | cons symbol symbols ih =>
    rw [List.zipIdx_cons] at h
    obtain ⟨table, word, hselector, htable, hword, hlength⟩ :=
      h symbol index List.mem_cons_self
    refine ⟨word, words lengthsAt (index + 1) symbols, ⟨tables, selectors, index + 1⟩, ?_,
      Decoder.reads_next hselector htable hword hlength, ih fun other i hmem =>
        h other i (List.mem_cons_of_mem _ hmem)⟩
    show (codeWord? (lengthsAt index) symbol).getD [] ++ words lengthsAt (index + 1) symbols = _
    rw [hword, Option.getD_some]

end Bunzip.Huffman
