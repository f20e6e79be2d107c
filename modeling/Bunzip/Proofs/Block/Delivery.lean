import Bunzip.Proofs.Block.Ranges
import Bunzip.Proofs.Block.Tokens
import Bunzip.Proofs.Block.Unsorting

/-!
# The column of a payload

A payload is read with any number of suspensions (`Payload.runChunks`), from the symbols that its
decoder gives on the way (`Decoder.Delivers`). What becomes of it depends only on the column that
the symbols say (`Payload.Ends`): it overflows, its pointer lies outside, or the expansion is the
column. The run that is being read need not have been written out for this: a token is accepted
exactly if what it says so far fits (`Expansion.Holds.accept`, `Expansion.Holds.fits_of_accept`).
-/

namespace Bunzip.Huffman

/-- The symbols that a decoder gives from a reader and the chunks behind it: with the bits of a
longest search the next symbol is decoded, and without them the next chunk is bound. -/
inductive Decoder.Delivers : Decoder → BitReader → List (List UInt8) → List Nat → Prop
  | done (d : Decoder) (r : BitReader) (chunks : List (List UInt8)) : Delivers d r chunks []
  | symbol {d after : Decoder} {r next : BitReader} {chunks : List (List UInt8)} {symbol : Nat}
      {symbols : List Nat} (hbits : r.hasBits Format.maxSearch = true)
      (hnext : d.next r = .ok (symbol, after) next) (hrest : Delivers after next chunks symbols) :
      Delivers d r chunks (symbol :: symbols)
  | suspended {d : Decoder} {r : BitReader} {chunk : List UInt8} {chunks : List (List UInt8)}
      {symbols : List Nat} (hbits : r.hasBits Format.maxSearch = false)
      (hrest : Delivers d (BitReader.bind r.suspend chunk) chunks symbols) :
      Delivers d r (chunk :: chunks) symbols

end Bunzip.Huffman

namespace Bunzip.Block

open Huffman

namespace Payload

/-- Runs on one chunk after the other, for as long as the bits do not suffice. -/
def runChunks (p : Payload) (r : BitReader) (chunks : List (List UInt8)) :
    Outcome (Option Readout) :=
  match chunks with
  | [] => p.run r
  | chunk :: chunks =>
    match p.run r with
    | .ok none (p, r) => p.runChunks (BitReader.bind r.suspend chunk) chunks
    | outcome => outcome

/-- What becomes of a payload whose symbols say a column. -/
inductive Ends (limit pointer : Nat) (column : List UInt8) : Outcome (Option Readout) → Prop
  | overflow (after : Payload × BitReader) (h : limit < column.length) :
      Ends limit pointer column (.error (.stream .blockOverflow) after)
  | stray (after : Payload × BitReader) (hfits : column.length ≤ limit)
      (h : column.length ≤ pointer) :
      Ends limit pointer column (.error (.stream (.invalidStartPointer pointer column.length)) after)
  | complete (readout : Readout) (after : Payload) (rest : BitReader)
      (hfits : column.length ≤ limit) (h : pointer < column.length)
      (hbytes : after.expansion.bytes.toList = column)
      (hcounts : Histogram after.expansion.counts column) :
      Ends limit pointer column (.ok (some readout) (after, rest))

variable {p mid : Payload} {r next : BitReader} {chunk column : List UInt8}
  {chunks : List (List UInt8)} {head : Head} {e after : Expansion} {d : Decoder}
  {order : List UInt8} {fault : Fault}

/-! ## Runs over chunks -/

theorem runChunks_of_run {outcome : Outcome (Option Readout)} (h : p.run r = outcome)
    (hsome : ∀ rest, outcome ≠ .ok none rest) : p.runChunks r chunks = outcome := by
  cases chunks with
  | nil => exact h
  | cons chunk chunks =>
    rw [runChunks, h]
    cases outcome with
    | error fault rest => rfl
    | ok readout rest =>
      cases readout with
      | none => exact absurd rfl (hsome rest)
      | some readout => rfl

theorem runChunks_congr {p' : Payload} {r' : BitReader} (h : p.run r = p'.run r') :
    p.runChunks r chunks = p'.runChunks r' chunks := by
  cases chunks with
  | nil => exact h
  | cons chunk chunks => rw [runChunks, runChunks, h]

theorem runChunks_of_short (h : r.hasBits Format.maxSearch = false) :
    p.runChunks r (chunk :: chunks) = p.runChunks (BitReader.bind r.suspend chunk) chunks := by
  have hrun : p.run r = .ok none (p, r) := by
    rw [run, if_neg (by simp [h])]
  rw [runChunks, hrun]

/-! ## The last symbol -/

theorem run_of_step_error (hbits : r.hasBits Format.maxSearch = true)
    {state : Payload × BitReader} (h : p.step r = .error fault state) :
    p.run r = .error fault state := by
  rw [run, if_pos hbits]
  split <;> simp_all

theorem run_of_refused (hbits : r.hasBits Format.maxSearch = true)
    (h : p.step r = .ok true (mid, next)) (hreadout : mid.readout = .error fault) :
    p.run r = .error fault (mid, next) := by
  rw [run, if_pos hbits]
  split <;> simp_all

/-- A complete payload is refused exactly if its pointer lies outside. -/
theorem ends_of_finish {limit : Nat} (hbits : r.hasBits Format.maxSearch = true)
    (hstep : step p r = .ok true (⟨head, after, d⟩, next)) (h : after.Holds order)
    (hcolumn : after.bytes.toList = column) (hfits : column.length ≤ limit) :
    Ends limit head.pointer column (p.runChunks r chunks) := by
  have hcounts : Histogram after.counts column := ⟨h.size_counts, hcolumn ▸ h.counts⟩
  have hbytes : after.bytes = column.toArray := by rw [← hcolumn, Array.toArray_toList]
  by_cases hpointer : head.pointer < column.length
  · obtain ⟨links, current, hstart, -, -⟩ := Walk.start_eq hcounts hpointer
    have hreadout : readout ⟨head, after, d⟩ =
        .ok (Readout.start ⟨links, current, column.length⟩ head.randomised head.stored) := by
      simp only [readout, hbytes, hstart]
    rw [runChunks_of_run (run_of_end ((r.hasBits_iff _).1 hbits) hstep hreadout) (by simp)]
    exact .complete _ _ _ hfits hpointer hcolumn hcounts
  · have hle := Nat.le_of_not_lt hpointer
    have hreadout : readout ⟨head, after, d⟩ =
        .error (.stream (.invalidStartPointer head.pointer column.length)) := by
      simp only [readout, hbytes, Walk.start, List.size_toArray, if_pos hle]
    rw [runChunks_of_run (run_of_refused hbits hstep hreadout) (by simp)]
    exact .stray _ hfits hle

/-! ## All symbols -/

/-- What becomes of a payload that is under way depends on what it has given and what the symbols
still to come say. -/
theorem ends_runChunks {front : List Nat} (h : e.Holds order) (hused : e.used.size ≤ 256)
    (hfront : ∀ symbol ∈ front, symbol ≤ e.used.size) (hfits : e.bytes.size + e.run ≤ e.limit)
    (hdelivers : d.Delivers r chunks (front ++ [e.used.size + 1]))
    (hcolumn : e.bytes.toList ++ Token.expandFrom order e.run e.weight
      ((front ++ [e.used.size + 1]).map (Token.ofSymbol e.used.size)) = column) :
    Ends e.limit head.pointer column (runChunks ⟨head, e, d⟩ r chunks) := by
  generalize hsymbols : front ++ [e.used.size + 1] = symbols at hdelivers
  induction hdelivers generalizing e order front with
  | done => simp at hsymbols
  | suspended hbits _ ih =>
    rw [runChunks_of_short hbits]
    exact ih h hused hfront hfits hcolumn hsymbols
  | @symbol d after r next chunks symbol symbols hbits hnext _ ih =>
    have hstep {done : Bool} {e' : Expansion}
        (haccept : e.accept (Token.ofSymbol e.used.size symbol) = .ok done e') :
        step ⟨head, e, d⟩ r = .ok done (⟨head, e', after⟩, next) := by
      simp only [step, hnext, Nat.mod_eq_of_lt (show e.used.size < 2 ^ 16 by omega), haccept]
    have hlength := congrArg List.length hcolumn
    rw [List.length_append, Array.length_toList] at hlength
    cases front with
    | nil =>
      have hpos : 0 < e.used.size := by
        rw [← h.length_eq]
        exact List.length_pos_iff.2 h.ne_nil
      obtain ⟨rfl, rfl⟩ := List.cons.inj hsymbols
      rw [List.nil_append, List.map_singleton, Token.ofSymbol_finish hpos] at hcolumn hlength
      obtain ⟨e', haccept, hafter, hbytes⟩ := h.accept_finish []
      rw [← Token.ofSymbol_finish hpos] at haccept
      have hrun : (Token.expandFrom order e.run e.weight [.finish]).length = e.run := by
        simp [Token.expandFrom]
      exact ends_of_finish hbits (hstep haccept) hafter (hbytes.trans hcolumn) (by omega)
    | cons first front =>
      obtain ⟨rfl, hrest⟩ := List.cons.inj hsymbols
      obtain ⟨hfinish, hrecent⟩ := Token.ofSymbol_of_le (hfront first List.mem_cons_self)
      have hposition : ∀ position, Token.ofSymbol e.used.size first = .recent position →
          position < order.length := fun position hposition =>
        h.length_eq ▸ hrecent position hposition
      rw [List.cons_append, List.map_cons] at hcolumn hlength
      by_cases hroom : e.bytes.size + (Token.expandFrom order e.run e.weight
          [Token.ofSymbol e.used.size first]).length ≤ e.limit
      · obtain ⟨e', order', haccept, hafter, hlimit, hsame, hfits', hgiven⟩ :=
          h.accept hposition hfinish hroom
        have hrun := run_of_step ((r.hasBits_iff _).1 hbits) (hstep haccept)
        rw [runChunks_congr hrun, ← hlimit]
        rw [← hsame] at hused hfront hcolumn hrest
        exact ih hafter hused (fun other hother => hfront other (List.mem_cons_of_mem _ hother))
          (hlimit ▸ hfits') (hsame ▸ (hgiven _).trans (hsame ▸ hcolumn)) hrest
      · -- what the token says up to here is part of the column
        have hpart := Token.length_expandFrom_le order e.run e.weight
          (Token.ofSymbol e.used.size first)
          ((front ++ [e.used.size + 1]).map (Token.ofSymbol e.used.size))
        cases haccept : e.accept (Token.ofSymbol e.used.size first) with
        | ok done e' => exact absurd (h.fits_of_accept hfinish haccept) hroom
        | error fault e' =>
          obtain rfl := h.fault_of_accept hposition haccept
          have hrefused : step ⟨head, e, d⟩ r =
              .error (.stream .blockOverflow) (⟨head, e', after⟩, next) := by
            simp only [step, hnext, Nat.mod_eq_of_lt (show e.used.size < 2 ^ 16 by omega), haccept]
          rw [runChunks_of_run (run_of_step_error hbits hrefused) (by simp)]
          exact .overflow _ (by omega)

/-! ## Columns -/

theorem Ends.overflow_iff {limit pointer : Nat} {outcome : Outcome (Option Readout)}
    (h : Ends limit pointer column outcome) :
    (∃ after, outcome = .error (.stream .blockOverflow) after) ↔ limit < column.length := by
  cases h with
  | overflow after hlimit => exact ⟨fun _ => hlimit, fun _ => ⟨after, rfl⟩⟩
  | stray after hfits =>
    refine ⟨?_, fun hlimit => absurd hfits (Nat.not_le_of_lt hlimit)⟩
    rintro ⟨after, ⟨⟩⟩
  | complete readout after rest hfits =>
    refine ⟨?_, fun hlimit => absurd hfits (Nat.not_le_of_lt hlimit)⟩
    rintro ⟨after, ⟨⟩⟩

theorem Ends.stray_iff {limit pointer : Nat} {outcome : Outcome (Option Readout)}
    (h : Ends limit pointer column outcome) :
    (∃ after, outcome = .error (.stream (.invalidStartPointer pointer column.length)) after) ↔
      column.length ≤ limit ∧ column.length ≤ pointer := by
  cases h with
  | overflow after hlimit =>
    refine ⟨?_, fun hfits => absurd hfits.1 (Nat.not_le_of_lt hlimit)⟩
    rintro ⟨after, ⟨⟩⟩
  | stray after hfits hpointer => exact ⟨fun _ => ⟨hfits, hpointer⟩, fun _ => ⟨after, rfl⟩⟩
  | complete readout after rest hfits hpointer =>
    refine ⟨?_, fun hstray => absurd hstray.2 (Nat.not_le_of_lt hpointer)⟩
    rintro ⟨after, ⟨⟩⟩

theorem Ends.complete_iff {limit pointer : Nat} {outcome : Outcome (Option Readout)}
    (h : Ends limit pointer column outcome) :
    (∃ readout after rest, outcome = .ok (some readout) (after, rest) ∧
        after.expansion.bytes.toList = column ∧ Histogram after.expansion.counts column) ↔
      column.length ≤ limit ∧ pointer < column.length := by
  cases h with
  | overflow after hlimit =>
    refine ⟨?_, fun hfits => absurd hfits.1 (Nat.not_le_of_lt hlimit)⟩
    rintro ⟨readout, after, rest, ⟨⟩, -⟩
  | stray after hfits hpointer =>
    refine ⟨?_, fun hinside => absurd hpointer (Nat.not_le_of_lt hinside.2)⟩
    rintro ⟨readout, after, rest, ⟨⟩, -⟩
  | complete readout after rest hfits hpointer hbytes hcounts =>
    exact ⟨fun _ => ⟨hfits, hpointer⟩, fun _ => ⟨readout, after, rest, rfl, hbytes, hcounts⟩⟩

/-- Wherever a payload is suspended, it overflows exactly if the column that its symbols say is too
long, is refused for its pointer exactly if the column is not longer than that, and is complete
otherwise, with the column and its counts. The symbols that are written for any bytes of the block
say these bytes. -/
theorem expands_symbols {used : List UInt8} (hused : 1 ≤ used.length ∧ used.length ≤ 256) :
    (∀ (limit : Nat) (head : Head) (d : Decoder) (r : BitReader) (chunks : List (List UInt8))
      (front : List Nat) (column : List UInt8),
      (∀ symbol ∈ front, symbol ≤ used.length) →
      d.Delivers r chunks (front ++ [used.length + 1]) →
      Token.expand used ((front ++ [used.length + 1]).map (Token.ofSymbol used.length)) = column →
      ((∃ after, (start limit head used d).runChunks r chunks =
          .error (.stream .blockOverflow) after) ↔ limit < column.length) ∧
      ((∃ after, (start limit head used d).runChunks r chunks =
          .error (.stream (.invalidStartPointer head.pointer column.length)) after) ↔
        column.length ≤ limit ∧ column.length ≤ head.pointer) ∧
      ((∃ readout after rest, (start limit head used d).runChunks r chunks =
          .ok (some readout) (after, rest) ∧ after.expansion.bytes.toList = column ∧
            Histogram after.expansion.counts column) ↔
        column.length ≤ limit ∧ head.pointer < column.length)) ∧
    ∀ bytes, (∀ byte ∈ bytes, byte ∈ used) → ∃ front,
      (Token.ofBytes used bytes).map (Token.symbol used.length) = front ++ [used.length + 1] ∧
      (∀ symbol ∈ front, symbol ≤ used.length) ∧
      Token.expand used ((front ++ [used.length + 1]).map (Token.ofSymbol used.length)) = bytes := by
  have hne : used ≠ [] := List.length_pos_iff.1 hused.1
  refine ⟨fun limit head d r chunks front column hfront hdelivers hcolumn => ?_,
    fun bytes hbytes => ?_⟩
  · have hends : Ends limit head.pointer column ((start limit head used d).runChunks r chunks) := by
      refine ends_runChunks (Expansion.holds_start limit hne hused.2) hused.2 hfront
        (Nat.zero_le limit) hdelivers ?_
      rw [← hcolumn, ← Token.expandFrom_eq_expand]
      rfl
    exact ⟨hends.overflow_iff, hends.stray_iff, hends.complete_iff⟩
  · obtain ⟨front, hsymbols, -, hfront⟩ := Token.symbols_ofBytes hne hbytes
    refine ⟨front, hsymbols, hfront, ?_⟩
    rw [← hsymbols]
    exact Token.expand_symbols hne hbytes

/-- A block of six bytes in two chunks, the first of which ends between two symbols. -/
theorem expands_symbols_suspended :
    ∃ readout after rest,
      (start 6 ⟨0, false, 3⟩ [97, 98, 110] ⟨#[Table.ofLengths [3, 3, 3, 3, 3]], #[0], 0⟩).runChunks
        (BitReader.bind BitState.empty [0x61, 0xb3, 0x00]) [[0, 0, 0]] =
          .ok (some readout) (after, rest) ∧
      after.expansion.bytes.toList = [110, 110, 98, 97, 97, 97] ∧
      Histogram after.expansion.counts [110, 110, 98, 97, 97, 97] := by
  have hdelivers : Decoder.Delivers ⟨#[Table.ofLengths [3, 3, 3, 3, 3]], #[0], 0⟩
      (BitReader.bind BitState.empty [0x61, 0xb3, 0x00]) [[0, 0, 0]] ([3, 0, 3, 3, 1] ++ [4]) :=
    .symbol rfl rfl (.suspended rfl (.symbol rfl rfl (.symbol rfl rfl (.symbol rfl rfl
      (.symbol rfl rfl (.symbol rfl rfl (.done _ _ _)))))))
  obtain ⟨hexpands, -⟩ := expands_symbols (show 1 ≤ [97, 98, 110].length ∧ _ by decide)
  refine (hexpands 6 ⟨0, false, 3⟩ _ _ _ _ [110, 110, 98, 97, 97, 97] (by decide) hdelivers
    ?_).2.2.2 (by decide)
  rw [← Token.expandFrom_eq_expand]
  rfl

end Payload

end Bunzip.Block
