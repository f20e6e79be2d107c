import Bunzip.Block.Payload
import Bunzip.Proofs.Block.Expansion
import Bunzip.Proofs.Block.Walk
import Bunzip.Proofs.Huffman.Decoder

/-!
# Reading a payload

A payload that is fed the code words of a block leads to the readout of the block's column
(`Payload.run_symbols`). One symbol is one step of the decoder and of the expansion; in between what
the expansion has given and what the symbols still to come say make up the column.
-/

namespace Bunzip.Block

open Scan Huffman Rotations

/-! ## Symbols and tokens -/

theorem Token.ofSymbol_finish {used : Nat} (h : 0 < used) : ofSymbol used (used + 1) = .finish := by
  obtain ⟨n, rfl⟩ : ∃ n, used = n + 1 := ⟨used - 1, by omega⟩
  exact if_pos rfl

theorem Token.ofSymbol_of_le {used symbol : Nat} (h : symbol ≤ used) :
    ofSymbol used symbol ≠ .finish ∧
      ∀ position, ofSymbol used symbol = .recent position → position < used := by
  match symbol with
  | 0 => exact ⟨by simp [ofSymbol], fun position h => by cases h⟩
  | 1 => exact ⟨by simp [ofSymbol], fun position h => by cases h⟩
  | symbol + 2 =>
    have hne : symbol + 1 ≠ used := by omega
    rw [ofSymbol, if_neg hne]
    refine ⟨by simp, fun position heq => ?_⟩
    cases heq
    omega

theorem Token.recent_lt {used symbol position : Nat} (hpos : 0 < used) (h : symbol ≤ used + 1)
    (hsymbol : ofSymbol used symbol = .recent position) : position < used := by
  rcases Nat.lt_or_eq_of_le h with hlt | rfl
  · exact (ofSymbol_of_le (Nat.le_of_lt_succ hlt)).2 position hsymbol
  · rw [ofSymbol_finish hpos] at hsymbol
    cases hsymbol

namespace Payload

variable {head : Head} {e after : Expansion} {d : Decoder} {r : BitReader} {order : List UInt8}

/-! ## Steps -/

theorem step_of_accept (head : Head) {d' : Decoder} {symbol : Nat} {done : Bool} {word rest : List Bool}
    (hread : Reads d.next word (symbol, d')) (hused : e.used.size ≤ 256)
    (haccept : e.accept (Token.ofSymbol e.used.size symbol) = .ok done after)
    (hbits : r.bits = word ++ rest) :
    ∃ next, next.bits = rest ∧ step ⟨head, e, d⟩ r = .ok done (⟨head, after, d'⟩, next) := by
  obtain ⟨next, hnext, hrest⟩ := hread r rest hbits
  refine ⟨next, hrest, ?_⟩
  simp only [step, hnext, Nat.mod_eq_of_lt (show e.used.size < 2 ^ 16 by omega), haccept]

theorem run_of_step {p mid : Payload} {next : BitReader} (hhas : Format.maxSearch ≤ r.bits.length)
    (hstep : p.step r = .ok false (mid, next)) : p.run r = mid.run next := by
  rw [run, if_pos ((r.hasBits_iff _).2 hhas)]
  split <;> simp_all

theorem run_of_end {p mid : Payload} {next : BitReader} {readout : Readout}
    (hhas : Format.maxSearch ≤ r.bits.length) (hstep : p.step r = .ok true (mid, next))
    (hreadout : mid.readout = .ok readout) : p.run r = .ok (some readout) (mid, next) := by
  rw [run, if_pos ((r.hasBits_iff _).2 hhas)]
  split <;> simp_all

theorem readout_of_holds {column : List UInt8} (h : e.Holds order) (hcolumn : e.bytes.toList = column)
    (hlength : column.length ≤ 2 ^ 24) (hpointer : head.pointer < column.length) :
    ∃ walk, readout ⟨head, e, d⟩ = .ok (Readout.start walk head.randomised head.stored) ∧
      walk.Gives (unsort column head.pointer) := by
  subst hcolumn
  obtain ⟨walk, hstart, hgives⟩ :=
    Walk.gives_start ⟨h.size_counts, h.counts⟩ hlength hpointer
  rw [Array.toArray_toList] at hstart
  exact ⟨walk, by simp only [readout, hstart], hgives⟩

theorem pointer_lt_of_readout {p : Payload} {readout : Readout} (h : p.readout = .ok readout) :
    p.head.pointer < p.expansion.bytes.size := by
  unfold Payload.readout Walk.start at h
  refine Nat.lt_of_not_le fun hle => ?_
  rw [if_pos hle] at h
  cases h

/-! ## Runs -/

/-- The symbols of a block are read to the last, and give the column that they say. -/
theorem run_symbols {column : List UInt8} {front : List Nat} {word rest : List Bool}
    (h : e.Holds order) (hused : e.used.size ≤ 256)
    (hserves : d.Serves (front ++ [e.used.size + 1]) word)
    (hfront : ∀ symbol ∈ front, symbol ≤ e.used.size)
    (hcolumn : e.bytes.toList ++ Token.expandFrom order e.run e.weight
      ((front ++ [e.used.size + 1]).map (Token.ofSymbol e.used.size)) = column)
    (hlimit : column.length ≤ e.limit) (hlength : column.length ≤ 2 ^ 24)
    (hpointer : head.pointer < column.length) (hbits : r.bits = word ++ rest)
    (hrest : Format.maxSearch ≤ rest.length) :
    ∃ walk last next, run ⟨head, e, d⟩ r =
        .ok (some (Readout.start walk head.randomised head.stored)) (last, next) ∧
      walk.Gives (unsort column head.pointer) ∧ next.bits = rest := by
  have hpos : 0 < e.used.size := by
    rw [← h.length_eq]
    exact List.length_pos_iff.2 h.ne_nil
  have hhas : Format.maxSearch ≤ r.bits.length := by
    rw [hbits, List.length_append]
    omega
  induction front generalizing e d r order word with
  | nil =>
    obtain ⟨first, back, d', rfl, hread, rfl⟩ := hserves
    rw [List.nil_append, List.map_singleton, Token.ofSymbol_finish hpos] at hcolumn
    obtain ⟨after, haccept, hafter, hbytes⟩ := h.accept_finish []
    rw [hcolumn] at hbytes
    rw [← Token.ofSymbol_finish hpos] at haccept
    rw [List.append_nil] at hbits
    obtain ⟨next, hnext, hstep⟩ := step_of_accept head hread hused haccept hbits
    obtain ⟨walk, hreadout, hgives⟩ := readout_of_holds hafter hbytes hlength hpointer
    exact ⟨walk, _, next, run_of_end hhas hstep hreadout, hgives, hnext⟩
  | cons symbol front ih =>
    obtain ⟨first, back, d', rfl, hread, hback⟩ := hserves
    obtain ⟨hfinish, hrecent⟩ := Token.ofSymbol_of_le (hfront symbol List.mem_cons_self)
    rw [List.cons_append, List.map_cons] at hcolumn
    have hfits := congrArg List.length hcolumn
    rw [List.length_append, Array.length_toList] at hfits
    have hfirst := Token.length_expandFrom_le order e.run e.weight
      (Token.ofSymbol e.used.size symbol)
      ((front ++ [e.used.size + 1]).map (Token.ofSymbol e.used.size))
    obtain ⟨after, order', haccept, hafter, halimit, haused, -, hsame⟩ :=
      h.accept (fun position hposition => h.length_eq ▸ hrecent position hposition) hfinish
        (by omega)
    obtain ⟨next, hnext, hstep⟩ := step_of_accept head hread hused haccept
      (hbits.trans (List.append_assoc _ _ _))
    rw [run_of_step hhas hstep]
    have hmore : Format.maxSearch ≤ next.bits.length := by
      rw [hnext, List.length_append]
      omega
    have hgiven := (hsame _).trans hcolumn
    rw [← haused] at hused hback hpos hfront hgiven
    exact ih hafter hused hback (fun other hother => hfront other (List.mem_cons_of_mem _ hother))
      hgiven (by omega) hnext hpos hmore

end Payload

end Bunzip.Block
