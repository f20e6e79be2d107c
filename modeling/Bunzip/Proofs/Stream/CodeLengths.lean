import Bunzip.Proofs.Stream.Detours

/-!
# Reading code lengths

The code lengths of a block are read bit by bit. The running length is kept in 32 bits, and steps
change it as they change the number (`Field.spells_steps`), so the word that is stored is the one
that the text says. The lengths of all tables lead to the payload (`Field.spells_tables`).
-/

namespace Bunzip.Stream

open Scan Huffman

namespace Field

open LengthText

variable {setup : Setup} {draft : Draft} {blockSize : Nat} {streamCrc : UInt32}

theorem spells_bit {table : Nat} {running : Running} {bit : Bool} {phase : Phase}
    (hread : Reads (readCodeLength blockSize draft ⟨table, some running⟩) [bit] phase) :
    State.Spells ⟨.field (.codeLength draft ⟨table, some running⟩), blockSize, streamCrc⟩ [bit]
      (.ok ⟨phase, blockSize, streamCrc⟩) :=
  State.spells_phase _ hread rfl rfl

theorem reads_alter (blockSize : Nat) (draft : Draft) (table : Nat) (length : Int32)
    (symbol : Nat) :
    Reads (readCodeLength blockSize draft ⟨table, some ⟨length, symbol, false⟩⟩) [true]
      (.field (.codeLength draft ⟨table, some ⟨length, symbol, true⟩⟩)) :=
  (reads_bit true).first (reads_pure _)

theorem reads_direction (blockSize : Nat) (draft : Draft) (table : Nat) (length : Int)
    (symbol : Nat) (down : Bool) :
    Reads (readCodeLength blockSize draft ⟨table, some ⟨Int32.ofInt length, symbol, true⟩⟩) [down]
      (.field (.codeLength draft ⟨table, some ⟨Int32.ofInt (if down then length - 1 else
        length + 1), symbol, false⟩⟩)) := by
  have hstep : (if down then Int32.ofInt length - 1 else Int32.ofInt length + 1) =
      Int32.ofInt (if down then length - 1 else length + 1) := by
    cases down with
    | true => exact (Int32.ofInt_sub length 1).symm
    | false => exact (Int32.ofInt_add length 1).symm
  refine (reads_bit down).first ?_
  rw [hstep]
  exact reads_pure _

/-- The steps to a length change nothing but the running length. -/
theorem spells_steps (blockSize : Nat) (streamCrc : UInt32) (draft : Draft) (length : Int)
    (steps : List Bool) (table symbol : Nat) :
    State.Spells
      ⟨.field (.codeLength draft ⟨table, some ⟨Int32.ofInt length, symbol, false⟩⟩), blockSize,
        streamCrc⟩
      (steps.flatMap fun down => [true, down])
      (.ok ⟨.field (.codeLength draft
        ⟨table, some ⟨Int32.ofInt (stepped length steps), symbol, false⟩⟩), blockSize,
        streamCrc⟩) := by
  induction steps generalizing length with
  | nil => exact .refl _
  | cons down steps ih =>
    have halter := reads_alter blockSize draft table (Int32.ofInt length) symbol
    have hdirection := reads_direction blockSize draft table length symbol down
    have hrest := ih (if down then length - 1 else length + 1)
    exact (spells_bit halter).trans ((spells_bit hdirection).trans hrest)

theorem spells_stepBits (blockSize : Nat) (streamCrc : UInt32) (draft : Draft) (length : Int)
    (steps : List Bool) (table symbol : Nat) :
    State.Spells
      ⟨.field (.codeLength draft ⟨table, some ⟨Int32.ofInt length, symbol, false⟩⟩), blockSize,
        streamCrc⟩
      (stepBits steps)
      ((storeLength blockSize draft table symbol (Int32.ofInt (stepped length steps))).map
        fun phase => ⟨phase, blockSize, streamCrc⟩) := by
  refine (spells_steps blockSize streamCrc draft length steps table symbol).trans ?_
  generalize hstore : storeLength blockSize draft table symbol
    (Int32.ofInt (stepped length steps)) = result
  cases result with
  | ok phase =>
    refine spells_bit ((reads_bit false).first ?_)
    rw [hstore]
    exact reads_pure _
  | error fault =>
    refine .fault rfl ?_
    have hfails : Fails (readCodeLength blockSize draft
        ⟨table, some ⟨Int32.ofInt (stepped length steps), symbol, false⟩⟩) [false] fault := by
      refine (reads_bit false).fails ?_
      rw [hstore]
      exact fails_throw [] fault
    exact hfails.bind _

/-- What follows the last code length of a table. -/
def afterTable (blockSize : Nat) (draft : Draft) (table : Nat) : Except Fault Phase :=
  if table + 1 < draft.setup.tables then .ok (.field (.codeLength draft ⟨table + 1, none⟩))
  else draft.setup.decoder.map fun decoder =>
    .payload (Block.Payload.start blockSize draft.head draft.used decoder)

theorem afterLength_of_lt (draft : Draft) {table symbol : Nat} (h : symbol + 1 < draft.setup.alphabet)
    (length : Int32) : afterLength blockSize draft table symbol length =
      .ok (.field (.codeLength draft ⟨table, some ⟨length, symbol + 1, false⟩⟩)) := by
  rw [afterLength, if_pos h]
  rfl

theorem afterLength_last {table symbol : Nat} (h : symbol + 1 = draft.setup.alphabet)
    (length : Int32) :
    afterLength blockSize draft table symbol length = afterTable blockSize draft table := by
  rw [afterLength, afterTable, if_neg (by omega)]
  split
  · rfl
  · cases draft.setup.decoder <;> rfl

theorem storeLength_eq {head : Block.Head} {used : List UInt8} {table symbol : Nat} {length : Int32}
    {after : Setup} (hset : setup.setLength table symbol length = .ok after) :
    storeLength blockSize ⟨head, used, setup⟩ table symbol length =
      afterLength blockSize ⟨head, used, after⟩ table symbol length := by
  rw [storeLength, hset]
  rfl

theorem spells_lengths (blockSize : Nat) (streamCrc : UInt32) (head : Block.Head)
    (used : List UInt8) {done : List (List Nat)} {current : List Nat} {length : Int}
    {steps : List (List Bool)} (h : setup.Filled (done ++ [current]))
    (hdone : done.length < Format.maxTables) (halphabet : setup.alphabet ≤ Format.maxAlphabet)
    (hlength : current.length + steps.length = setup.alphabet) (hne : steps ≠ [])
    (hlengths : ∀ l ∈ running length steps, 1 ≤ wrapped l ∧ wrapped l ≤ Format.maxCodeLength) :
    ∃ after : Setup,
      after.Filled (done ++ [current ++ (running length steps).map fun l => (wrapped l).toNat]) ∧
      after.tables = setup.tables ∧ after.alphabet = setup.alphabet ∧
      after.selectors = setup.selectors ∧
      State.Spells
        ⟨.field (.codeLength ⟨head, used, setup⟩
          ⟨done.length, some ⟨Int32.ofInt length, current.length, false⟩⟩), blockSize, streamCrc⟩
        (steps.flatMap stepBits)
        ((afterTable blockSize ⟨head, used, after⟩ done.length).map
          fun phase => ⟨phase, blockSize, streamCrc⟩) := by
  induction steps generalizing setup current length with
  | nil => exact absurd rfl hne
  | cons first steps ih =>
    rw [running_cons] at hlengths ⊢
    rw [List.length_cons] at hlength
    obtain ⟨mid, hset, hmid, htables, halphabet', hselectors⟩ :=
      h.setLength hdone (show current.length < Format.maxAlphabet by omega)
        (hlengths _ List.mem_cons_self)
    have hfirst := spells_stepBits blockSize streamCrc ⟨head, used, setup⟩ length first
      done.length current.length
    rw [storeLength_eq hset] at hfirst
    rw [← wrapped] at hmid
    rw [List.flatMap_cons, List.map_cons]
    by_cases hlast : steps = []
    · subst hlast
      refine ⟨mid, hmid, htables, halphabet', hselectors, ?_⟩
      rw [List.length_nil, Nat.zero_add, ← halphabet'] at hlength
      rw [afterLength_last hlength] at hfirst
      rwa [List.flatMap_nil, List.append_nil]
    · have hpos := List.length_pos_iff.2 hlast
      have hcurrent : (current ++ [(wrapped (stepped length first)).toNat]).length =
          current.length + 1 := List.length_append
      obtain ⟨after, hafter, htables', halphabet'', hselectors', hrest⟩ :=
        ih hmid (by omega) (by omega) hlast fun l hl => hlengths l (List.mem_cons_of_mem _ hl)
      rw [List.append_assoc, List.singleton_append] at hafter
      rw [hcurrent] at hrest
      have hlt : current.length + 1 < mid.alphabet := by omega
      rw [afterLength_of_lt ⟨head, used, mid⟩ hlt] at hfirst
      exact ⟨after, hafter, htables'.trans htables, halphabet''.trans halphabet',
        hselectors'.trans hselectors, hfirst.trans hrest⟩

theorem reads_start (blockSize : Nat) (draft : Draft) (table : Nat) {start : Nat}
    (hstart : start < 32) :
    Reads (readCodeLength blockSize draft ⟨table, none⟩) (Bits.ofNat 5 start)
      (.field (.codeLength draft ⟨table, some ⟨Int32.ofInt start, 0, false⟩⟩)) := by
  rw [Int32.ofInt_eq_ofNat]
  exact (reads_number_ofNat hstart).first (reads_pure _)

theorem spells_start (blockSize : Nat) (streamCrc : UInt32) (draft : Draft) (table : Nat)
    {start : Nat} (hstart : start < 32) :
    State.Spells ⟨.field (.codeLength draft ⟨table, none⟩), blockSize, streamCrc⟩
      (Bits.ofNat 5 start)
      (.ok ⟨.field (.codeLength draft ⟨table, some ⟨Int32.ofInt start, 0, false⟩⟩), blockSize,
        streamCrc⟩) := by
  refine State.spells_phase _ (reads_start blockSize draft table hstart) rfl ?_
  rw [Bits.length_ofNat]
  rfl

theorem spells_table (blockSize : Nat) (streamCrc : UInt32) (head : Block.Head) (used : List UInt8)
    {done : List (List Nat)} {t : LengthText} (h : setup.Filled done)
    (hdone : done.length < Format.maxTables) (hpos : 0 < setup.alphabet)
    (halphabet : setup.alphabet ≤ Format.maxAlphabet)
    (hreadable : BlockText.ReadableTable setup.alphabet t) :
    ∃ after : Setup, after.Filled (done ++ [t.stored]) ∧
      after.tables = setup.tables ∧ after.alphabet = setup.alphabet ∧
      after.selectors = setup.selectors ∧
      State.Spells ⟨.field (.codeLength ⟨head, used, setup⟩ ⟨done.length, none⟩), blockSize,
          streamCrc⟩ t.bits
        ((afterTable blockSize ⟨head, used, after⟩ done.length).map
          fun phase => ⟨phase, blockSize, streamCrc⟩) := by
  obtain ⟨hstart, hsteps, hlengths⟩ := hreadable
  have hne : t.steps ≠ [] := by
    intro hnil
    rw [hnil, List.length_nil] at hsteps
    omega
  obtain ⟨after, hafter, htables, halphabet', hselectors, hrest⟩ :=
    spells_lengths blockSize streamCrc head used h.append_nil hdone halphabet
      ((Nat.zero_add _).trans hsteps) hne hlengths
  exact ⟨after, hafter, htables, halphabet', hselectors,
    (spells_start blockSize streamCrc _ done.length hstart).trans hrest⟩

/-- The code lengths of the tables are read to the last, and the payload begins. -/
theorem spells_tables (blockSize : Nat) (streamCrc : UInt32) (head : Block.Head)
    (used : List UInt8) {done : List (List Nat)} {tables : List LengthText} (h : setup.Filled done)
    (htables : setup.tables = done.length + tables.length)
    (hmax : setup.tables ≤ Format.maxTables) (hpos : 0 < setup.alphabet)
    (halphabet : setup.alphabet ≤ Format.maxAlphabet) (hne : tables ≠ [])
    (hreadable : ∀ t ∈ tables, BlockText.ReadableTable setup.alphabet t) :
    ∃ after : Setup, after.Filled (done ++ tables.map LengthText.stored) ∧
      after.tables = setup.tables ∧ after.alphabet = setup.alphabet ∧
      after.selectors = setup.selectors ∧
      State.Spells ⟨.field (.codeLength ⟨head, used, setup⟩ ⟨done.length, none⟩), blockSize,
          streamCrc⟩ (tables.flatMap LengthText.bits)
        (after.decoder.map fun decoder =>
          ⟨.payload (Block.Payload.start blockSize head used decoder), blockSize, streamCrc⟩) := by
  induction tables generalizing setup done with
  | nil => exact absurd rfl hne
  | cons t tables ih =>
    have ht := hreadable t List.mem_cons_self
    rw [List.length_cons] at htables
    obtain ⟨mid, hmid, hmtables, hmalphabet, hmselectors, hfirst⟩ :=
      spells_table blockSize streamCrc head used h (by omega) hpos halphabet ht
    have hcount : (done ++ [t.stored]).length = done.length + 1 := List.length_append
    rw [List.flatMap_cons, List.map_cons, List.append_cons]
    by_cases hlast : tables = []
    · subst hlast
      rw [List.flatMap_nil, List.append_nil, List.map_nil, List.append_nil]
      refine ⟨mid, hmid, hmtables, hmalphabet, hmselectors, ?_⟩
      have hend : ¬ done.length + 1 < mid.tables := by rw [hmtables, htables]; simp
      simp only [afterTable, if_neg hend] at hfirst
      generalize mid.decoder = decoder at hfirst ⊢
      cases decoder <;> exact hfirst
    · have hmore := List.length_pos_iff.2 hlast
      have hlt : done.length + 1 < mid.tables := by omega
      obtain ⟨after, hafter, hatables, haalphabet, haselectors, hrest⟩ :=
        ih hmid (by rw [hmtables, htables, hcount]; omega) (by omega) (by omega)
          (by omega) hlast fun t ht => by
            rw [hmalphabet]
            exact hreadable t (List.mem_cons_of_mem _ ht)
      rw [afterTable, if_pos hlt, ← hcount] at hfirst
      exact ⟨after, hafter, hatables.trans hmtables, haalphabet.trans hmalphabet,
        haselectors.trans hmselectors, hfirst.trans hrest⟩

/-- The payload begins with the tables of the code lengths that are stored. -/
theorem runs_tables (blockSize : Nat) (streamCrc : UInt32) (head : Block.Head) (used : List UInt8)
    {tables : List LengthText} (h : setup.Filled []) (htables : setup.tables = tables.length)
    (hmax : setup.tables ≤ Format.maxTables) (hpos : 0 < setup.alphabet)
    (halphabet : setup.alphabet ≤ Format.maxAlphabet) (hne : tables ≠ [])
    (hreadable : ∀ t ∈ tables, BlockText.ReadableTable setup.alphabet t) :
    State.Runs ⟨.field (.codeLength ⟨head, used, setup⟩ ⟨0, none⟩), blockSize, streamCrc⟩
      (tables.flatMap LengthText.bits)
      ⟨.payload (Block.Payload.start blockSize head used
        ⟨((tables.map LengthText.stored).map Table.ofLengths).toArray,
          setup.selectors, 0⟩), blockSize, streamCrc⟩ := by
  obtain ⟨after, hafter, hatables, haalphabet, haselectors, hspells⟩ :=
    spells_tables blockSize streamCrc head used h (htables.trans (Nat.zero_add _).symm) hmax hpos
      halphabet hne hreadable
  have hcount : (tables.map LengthText.stored).length = tables.length := List.length_map _
  have hdecoder := hafter.decoder_eq (by rw [hatables, htables, List.nil_append, hcount])
    (by rw [List.nil_append, hcount]; omega) (by omega) fun lengths hmem => by
      obtain ⟨t, ht, rfl⟩ := List.mem_map.1 hmem
      rw [length_stored, (hreadable t ht).length_steps, haalphabet]
  rw [hdecoder, haselectors, List.nil_append] at hspells
  exact hspells.runs

end Field

end Bunzip.Stream
