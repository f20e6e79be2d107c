import Bunzip.Proofs.Stream.CodeLengths
import Bunzip.Proofs.Stream.Passage

/-!
# The running code length

The code length that is being read changes by one with each step, and there may be any number of
steps before it is checked. It is kept in a word of 32 bits. `Tally` says as a number what the bits
of a table come to, and `Decompressor.Tallies` which bits those are where a call stands. The word is
this number modulo `2 ^ 32` (`Tallies.length_eq`), and it is the number itself up to `2 ^ 31 - 32`
steps; with one more, steps up from the longest first length leave the range of the word
(`running_length_kept`).
-/

namespace Bunzip.Stream

open Scan

/-! ## Lengths as numbers -/

/-- What the bits of a code table so far come to. -/
structure Tally where
  length : Int
  /-- The number of steps up and down. -/
  steps : Nat
  /-- Whether the next bit is the direction of a step. -/
  altering : Bool
deriving Repr, DecidableEq

namespace Tally

/-- Counts one bit: a one begins a step, a zero leaves the length as it is. -/
def count (t : Tally) (bit : Bool) : Tally :=
  if t.altering then ⟨if bit then t.length - 1 else t.length + 1, t.steps + 1, false⟩
  else ⟨t.length, t.steps, bit⟩

/-- The first five bits are the first length, and the others lead from each length to the next. -/
def ofBits (word : List Bool) : Tally :=
  (word.drop 5).foldl count ⟨Bits.value (word.take 5), 0, false⟩

theorem ofBits_append {word : List Bool} (h : 5 ≤ word.length) (back : List Bool) :
    ofBits (word ++ back) = back.foldl count (ofBits word) := by
  rw [ofBits, List.drop_append_of_le_length h, List.take_append_of_le_length h, List.foldl_append]
  rfl

theorem ofBits_start {start : Nat} (h : start < 32) :
    ofBits (Bits.ofNat 5 start) = ⟨start, 0, false⟩ := by
  have hlength : (Bits.ofNat 5 start).length = 5 := Bits.length_ofNat 5 start
  rw [ofBits, List.drop_of_length_le (by omega), List.take_of_length_le (by omega),
    Bits.value_ofNat, Nat.mod_eq_of_lt h]
  rfl

theorem foldl_count_step (length : Int) (steps : Nat) (down : Bool) :
    [true, down].foldl count ⟨length, steps, false⟩ =
      ⟨if down then length - 1 else length + 1, steps + 1, false⟩ := rfl

/-- The length is no farther from the first one than there were steps. -/
structure Near (start : Int) (t : Tally) : Prop where
  le_length : start - t.steps ≤ t.length
  length_le : t.length ≤ start + t.steps

theorem Near.count {start : Int} {t : Tally} (h : t.Near start) (bit : Bool) :
    (t.count bit).Near start := by
  obtain ⟨hge, hle⟩ := h
  obtain ⟨length, steps, altering⟩ := t
  simp only at hge hle
  cases altering with
  | false => exact ⟨hge, hle⟩
  | true => cases bit <;> constructor <;> simp only [Tally.count, if_true] <;> simp <;> omega

theorem near_ofBits (word : List Bool) :
    (ofBits word).Near (Bits.value (word.take 5)) := by
  have hfold (bits : List Bool) {start : Int} {t : Tally} (h : t.Near start) :
      (bits.foldl Tally.count t).Near start := by
    induction bits generalizing t with
    | nil => exact h
    | cons bit rest ih => exact ih (h.count bit)
  refine hfold _ ⟨?_, ?_⟩
  · exact Int.sub_le_self _ (Int.natCast_nonneg _)
  · exact Int.le_add_of_nonneg_right (Int.natCast_nonneg _)

theorem length_bounds (word : List Bool) :
    -((ofBits word).steps : Int) ≤ (ofBits word).length ∧
      (ofBits word).length ≤ 31 + (ofBits word).steps := by
  obtain ⟨hge, hle⟩ := near_ofBits word
  have hlt := Bits.value_lt (word.take 5)
  have hpow : 2 ^ (word.take 5).length ≤ 2 ^ 5 :=
    Nat.pow_le_pow_right (by omega) (List.length_take_le 5 word)
  omega

end Tally

/-! ## Single bits -/

/-- What follows a running length, none before the first, when these bits are read. -/
def Running.Follows (next : Running) (word : List Bool) : Option Running → Prop
  | none => ∃ start < 32, word = Bits.ofNat 5 start ∧ next = ⟨Int32.ofInt start, 0, false⟩
  | some ⟨length, symbol, true⟩ => ∃ down, word = [down] ∧
    next = ⟨if down then length - 1 else length + 1, symbol, false⟩
  | some ⟨length, symbol, false⟩ => word = [true] ∧ next = ⟨length, symbol, true⟩ ∨
    word = [false] ∧ next = ⟨length, symbol + 1, false⟩

/-- The word that is kept of a running length is that of the tally. -/
def Tally.Kept (word : List Bool) : Option Running → Prop
  | none => word = []
  | some running => 5 ≤ word.length ∧ running.length = Int32.ofInt (Tally.ofBits word).length ∧
    running.altering = (Tally.ofBits word).altering

/-- Each bit changes the word as it changes the number. -/
theorem Tally.Kept.follows {word back : List Bool} {running : Option Running} {next : Running}
    (h : Kept word running) (hnext : next.Follows back running) :
    Kept (word ++ back) (some next) := by
  match running with
  | none =>
    obtain rfl : word = [] := h
    obtain ⟨start, hstart, rfl, rfl⟩ := hnext
    rw [List.nil_append]
    refine ⟨Nat.le_of_eq (Bits.length_ofNat 5 start).symm, ?_, ?_⟩ <;>
      rw [Tally.ofBits_start hstart]
  | some ⟨length, symbol, true⟩ =>
    obtain ⟨hle, hlength, haltering⟩ := h
    obtain ⟨down, rfl, rfl⟩ := hnext
    refine ⟨by rw [List.length_append]; omega, ?_⟩
    rw [Tally.ofBits_append hle, List.foldl_cons, List.foldl_nil, Tally.count, if_pos haltering.symm]
    simp only at hlength
    refine ⟨?_, rfl⟩
    cases down with
    | true =>
      rw [hlength]
      exact (Int32.ofInt_sub _ 1).symm
    | false =>
      rw [hlength]
      exact (Int32.ofInt_add _ 1).symm
  | some ⟨length, symbol, false⟩ =>
    obtain ⟨hle, hlength, haltering⟩ := h
    have hkeep : ¬ (Tally.ofBits word).altering = true := by
      rw [← haltering]
      exact Bool.false_ne_true
    obtain ⟨rfl, rfl⟩ | ⟨rfl, rfl⟩ := hnext
    all_goals
      refine ⟨by rw [List.length_append]; omega, ?_⟩
      rw [Tally.ofBits_append hle, List.foldl_cons, List.foldl_nil, Tally.count, if_neg hkeep]
      exact ⟨hlength, rfl⟩

/-- The place in the code lengths, if they are being read. -/
def Phase.cursor? : Phase → Option LengthCursor
  | .field (.codeLength _ cursor) => some cursor
  | _ => none

theorem Phase.eq_of_cursor? {phase : Phase} {cursor : LengthCursor}
    (h : phase.cursor? = some cursor) : ∃ draft, phase = .field (.codeLength draft cursor) := by
  unfold Phase.cursor? at h
  split at h
  · cases h
    exact ⟨_, rfl⟩
  · cases h

/-- The length that is running. -/
def Phase.running? (phase : Phase) : Option Running := phase.cursor?.bind LengthCursor.running

/-- The length that is running at a place. -/
def Place.running? : Place → Option Running
  | .field next _ _ _ => (Phase.field next).running?
  | _ => none

namespace Field

variable {blockSize table symbol : Nat} {draft : Draft} {streamCrc : UInt32} {field : Field}

theorem running_of_storeLength {length : Int32} {after : Draft} {table' : Nat} {next : Running}
    (h : storeLength blockSize draft table symbol length =
      .ok (.field (.codeLength after ⟨table', some next⟩))) :
    table' = table ∧ next = ⟨length, symbol + 1, false⟩ := by
  obtain ⟨head, used, setup⟩ := draft
  cases hset : setup.setLength table symbol length with
  | error fault =>
    rw [storeLength, hset] at h
    cases h
  | ok mid =>
    rw [storeLength_eq hset] at h
    unfold afterLength at h
    split at h
    · cases h
      exact ⟨rfl, rfl⟩
    split at h
    · cases h
    · generalize (Draft.setup ⟨head, used, mid⟩).decoder = decoder at h
      cases decoder <;> cases h

theorem tells_readCodeLength_running (blockSize : Nat) (draft : Draft) (table : Nat)
    (running : Option Running) :
    Tells (readCodeLength blockSize draft ⟨table, running⟩) fun word phase =>
      ∀ after table' next, phase = .field (.codeLength after ⟨table', some next⟩) →
        table' = table ∧ next.Follows word running := by
  match running with
  | none =>
    refine (tells_number 5).bind fun start front ⟨hfront, hlt⟩ => tells_pure ?_
    rintro after table' next hphase
    cases hphase
    rw [List.append_nil]
    exact ⟨rfl, start, hlt, hfront, by rw [Int32.ofInt_eq_ofNat]⟩
  | some ⟨length, symbol, true⟩ =>
    refine tells_bit.bind fun down front hfront => tells_pure ?_
    rintro after table' next hphase
    cases hphase
    rw [List.append_nil]
    exact ⟨rfl, down, hfront, rfl⟩
  | some ⟨length, symbol, false⟩ =>
    refine tells_bit.bind fun more front hfront => ?_
    subst hfront
    refine tells_ite (fun hmore => tells_pure ?_) fun hmore => tells_ofExcept ?_
    · rintro after table' next hphase
      cases hphase
      exact ⟨rfl, .inl ⟨by rw [hmore, List.append_nil], rfl⟩⟩
    · rintro phase hstore after table' next rfl
      obtain ⟨htable, hnext⟩ := running_of_storeLength hstore
      rw [Bool.not_eq_true] at hmore
      exact ⟨htable, .inr ⟨by rw [hmore, List.append_nil], hnext⟩⟩

theorem tells_read_running (blockSize : Nat) (streamCrc : UInt32) (draft : Draft) (table : Nat)
    (running : Option Running) :
    Tells (read blockSize streamCrc (.codeLength draft ⟨table, running⟩)) fun word state =>
      state.blockSize = blockSize ∧ state.streamCrc = streamCrc ∧
        ∀ after table' next, state.phase = .field (.codeLength after ⟨table', some next⟩) →
          table' = table ∧ next.Follows word running := by
  refine (tells_readCodeLength_running blockSize draft table running).bind
    fun phase front hphase => tells_pure ⟨rfl, rfl, ?_⟩
  rw [List.append_nil]
  exact hphase

theorem eq_of_running? {running : Running} (h : (Phase.field field).running? = some running) :
    ∃ draft table, field = .codeLength draft ⟨table, some running⟩ := by
  obtain ⟨⟨table, here⟩, hcursor, hrunning⟩ := Option.bind_eq_some_iff.1 h
  obtain ⟨draft, hphase⟩ := Phase.eq_of_cursor? hcursor
  cases hphase
  cases hrunning
  exact ⟨draft, table, rfl⟩

/-- Only code lengths lead to a running length. -/
theorem gives_read_idle (blockSize : Nat) (streamCrc : UInt32)
    (h : ∀ draft cursor, field ≠ .codeLength draft cursor) :
    Gives (fun after => after.phase.running? = none) (field.read blockSize streamCrc) := by
  have wrap {scan : Scan Phase} (hscan : Gives (fun phase => phase.running? = none) scan) :=
    gives_phase blockSize streamCrc hscan
  cases field with
  | streamHeader =>
    refine gives_bind fun _ => gives_ite (fun _ => gives_fail _) fun _ => gives_bind fun _ => ?_
    exact gives_ite (fun _ => gives_fail _) fun _ => gives_pure rfl
  | blockHeader =>
    refine wrap (gives_bind fun _ => gives_ite (fun _ => gives_bind fun _ => ?_) fun _ => ?_)
    · exact gives_ite (fun _ => gives_fail _) fun _ => gives_pure rfl
    · exact gives_ite (fun _ => gives_bind fun _ => gives_pure rfl) fun _ => gives_fail _
  | blockParams stored => exact wrap (gives_bind fun _ => gives_bind fun _ => gives_pure rfl)
  | usedGroups head => exact wrap (gives_bind fun _ => gives_pure rfl)
  | usedBitmaps head groups =>
    refine wrap (gives_bind fun _ => gives_bind fun _ => gives_ite (fun _ => gives_fail _) ?_)
    exact fun _ => gives_ite (fun _ => gives_fail _) fun _ => gives_pure rfl
  | selectorCount draft =>
    exact wrap (gives_bind fun _ => gives_ite (fun _ => gives_fail _) fun _ => gives_pure rfl)
  | selector draft index =>
    refine wrap (gives_bind fun _ => gives_bind fun _ => gives_ite (fun _ => ?_) fun _ => ?_)
    · exact gives_pure rfl
    · exact gives_pure rfl
  | codeLength draft cursor => exact absurd rfl (h draft cursor)

end Field

theorem Place.Step.of_running {field : Field} {blockSize : Nat} {streamCrc : UInt32}
    {r : BitReader} {place : Place} {next : Running}
    (h : Place.Step (.field field blockSize streamCrc r) place)
    (hrunning : place.running? = some next) :
    ∃ draft after table running back rest, field = .codeLength draft ⟨table, running⟩ ∧
      place = .field (.codeLength after ⟨table, some next⟩) blockSize streamCrc rest ∧
      r.bits = back ++ rest.bits ∧ next.Follows back running := by
  cases h with
  | @field _ _ _ _ rest state _ hbits hread hplace =>
    obtain ⟨phase, size, crc⟩ := state
    cases phase with
    | field later =>
      cases hplace
      obtain ⟨after, table', rfl⟩ := Field.eq_of_running? hrunning
      by_cases hfield : ∃ draft cursor, field = .codeLength draft cursor
      · obtain ⟨draft, ⟨table, running⟩, rfl⟩ := hfield
        obtain ⟨back, hback, rfl, rfl, hafter⟩ :=
          Field.tells_read_running blockSize streamCrc draft table running _ _ _ hread
        obtain ⟨rfl, hnext⟩ := hafter after table' next rfl
        exact ⟨draft, after, table', running, back, rest, rfl, rfl, hback, hnext⟩
      · have hidle := Field.gives_read_idle blockSize streamCrc
          (fun draft cursor heq => hfield ⟨draft, cursor, heq⟩) _ _ _ hread
        cases hidle
    | payload =>
      cases hplace
      cases hrunning
    | ended => cases hplace
    | closed => cases hplace

/-! ## The bits of a table so far -/

namespace Decompressor

variable {d : Decompressor} {chunk : List UInt8} {place : Place} {word : List Bool}
  {draft after : Draft} {table blockSize : Nat} {streamCrc : UInt32} {r : BitReader}

/-- A call on the chunk stands at a code length, and these are the bits of its table that were read
so far, in this call and in those before it. -/
inductive Tallies : Decompressor → List UInt8 → Place → List Bool → Prop
  /-- Before a table. -/
  | start {d : Decompressor} {chunk : List UInt8} {draft : Draft} {table blockSize : Nat}
    {streamCrc : UInt32} {r : BitReader} (hd : d.Reachable)
    (hplace : d.Passes chunk (.field (.codeLength draft ⟨table, none⟩) blockSize streamCrc r)) :
    Tallies d chunk (.field (.codeLength draft ⟨table, none⟩) blockSize streamCrc r) []
  /-- Behind the next bits of the same table. -/
  | read {d : Decompressor} {chunk : List UInt8} {draft after : Draft} {table blockSize : Nat}
    {running : Option Running} {next : Running} {streamCrc : UInt32} {r rest : BitReader}
    {word back : List Bool}
    (h : Tallies d chunk (.field (.codeLength draft ⟨table, running⟩) blockSize streamCrc r) word)
    (hstep : Place.Step (.field (.codeLength draft ⟨table, running⟩) blockSize streamCrc r)
      (.field (.codeLength after ⟨table, some next⟩) blockSize streamCrc rest))
    (hback : r.bits = back ++ rest.bits) :
    Tallies d chunk (.field (.codeLength after ⟨table, some next⟩) blockSize streamCrc rest)
      (word ++ back)
  /-- In the call after one that was suspended. -/
  | resume {d : Decompressor} {chunk : List UInt8} {field : Field} {blockSize : Nat}
    {streamCrc : UInt32} {r : BitReader} {word : List Bool}
    (h : Tallies d chunk (.field field blockSize streamCrc r) word)
    (hbits : r.hasBits field.need = false) (later : List UInt8) :
    Tallies (d.decompress chunk).next later
      (.field field blockSize streamCrc (BitReader.bind r.suspend later)) word

theorem Tallies.passes (h : d.Tallies chunk place word) : d.Reachable ∧ d.Passes chunk place := by
  induction h with
  | start hd hplace => exact ⟨hd, hplace⟩
  | read _ hstep _ ih =>
    obtain ⟨hd, first, hfirst, hpath⟩ := ih
    exact ⟨hd, first, hfirst, hpath.tail hstep⟩
  | @resume d chunk field blockSize streamCrc r word _ hbits later ih =>
    refine ⟨ih.1.decompress chunk, _, ?_, .refl⟩
    rw [ih.2.suspended hbits]
    rfl

/-- The word that is kept is that of the tally, through all calls. -/
theorem Tallies.kept (h : d.Tallies chunk place word) : Tally.Kept word place.running? := by
  induction h with
  | start => exact rfl
  | read _ hstep hback ih =>
    obtain ⟨_, _, _, running, back, rest, hfield, hplace, hword, hnext⟩ := hstep.of_running rfl
    cases hfield
    cases hplace
    -- the bits of the step are what is gone from the reader
    obtain rfl := List.append_cancel_right (hback.symm.trans hword)
    exact ih.follows hnext
  | resume _ _ _ ih => exact ih

theorem Tallies.length_eq {running : Running} (h : d.Tallies chunk place word)
    (hrunning : place.running? = some running) :
    running.length = Int32.ofInt (Tally.ofBits word).length := by
  have hkept := h.kept
  rw [hrunning] at hkept
  exact hkept.2.1

/-- Where a call comes to a running length the bits of its table were read, if this is so where the
call begins. -/
theorem Passes.exists_tallies (hd : d.Reachable) (h : d.Passes chunk place)
    (hfirst : ∀ first, d.state.place? (BitReader.bind d.bits chunk) = some first →
      ∀ running, first.running? = some running → ∃ word, d.Tallies chunk first word) :
    ∀ running, place.running? = some running → ∃ word, d.Tallies chunk place word := by
  have hall := h.induct
    (P := fun place => d.Passes chunk place ∧
      ∀ running, place.running? = some running → ∃ word, d.Tallies chunk place word)
    (fun first hplace => ⟨⟨first, hplace, .refl⟩, hfirst first hplace⟩) ?_
  · exact hall.2
  rintro here next hstep ⟨⟨first, hplace, hpath⟩, ih⟩
  refine ⟨⟨first, hplace, hpath.tail hstep⟩, fun running hrunning => ?_⟩
  cases here with
  | field field blockSize streamCrc r =>
    obtain ⟨draft, after, table, before, back, rest, rfl, rfl, hback, -⟩ :=
      hstep.of_running hrunning
    cases before with
    | none =>
      -- the first length of a table, so nothing was read of it before
      exact ⟨_, .read (.start hd ⟨first, hplace, hpath⟩) hstep hback⟩
    | some before =>
      obtain ⟨word, hword⟩ := ih before rfl
      exact ⟨_, .read hword hstep hback⟩
  | symbol => cases hstep <;> cases hrunning
  | byte =>
    cases hstep
    cases hrunning

/-- Wherever calls come to a running length, the bits of its table were read. -/
theorem Reachable.exists_tallies {running : Running} (hd : d.Reachable)
    (h : d.Passes chunk place) (hrunning : place.running? = some running) :
    ∃ word, d.Tallies chunk place word := by
  induction hd generalizing chunk place running with
  | start =>
    refine h.exists_tallies .start (fun first hfirst running hrunning => ?_) running hrunning
    cases hfirst
    cases hrunning
  | @decompress d hd before ih =>
    refine h.exists_tallies (hd.decompress before) (fun first hfirst running hrunning => ?_) running
      hrunning
    generalize hnext : (d.decompress before).next.state = state at hfirst
    obtain ⟨phase, blockSize, streamCrc⟩ := state
    cases phase with
    | field field =>
      cases hfirst
      obtain ⟨draft, table, rfl⟩ := Field.eq_of_running? hrunning
      -- the call before was suspended at this length, and its bits are those of the tally there
      obtain ⟨r, hplace, hbits⟩ := exists_passes_of_next hnext nofun
      obtain ⟨word, hword⟩ := ih hplace rfl
      have hresumed := hword.resume hbits chunk
      rw [hplace.suspended hbits] at hresumed ⊢
      exact ⟨word, hresumed⟩
    | payload =>
      cases hfirst
      cases hrunning
    | ended => cases hfirst
    | closed => cases hfirst
  | close hd hclose =>
    obtain ⟨first, hfirst, -⟩ := h
    unfold Decompressor.close at hclose
    split at hclose <;> cases hclose
    cases hfirst

theorem Tallies.reads {running : Option Running} {next : Running} {back rest : List Bool}
    (h : d.Tallies chunk (.field (.codeLength draft ⟨table, running⟩) blockSize streamCrc r) word)
    (hread : Reads (Field.readCodeLength blockSize draft ⟨table, running⟩) back
      (.field (.codeLength after ⟨table, some next⟩)))
    (hneed : Field.need (.codeLength draft ⟨table, running⟩) ≤ back.length)
    (hbits : r.bits = back ++ rest) :
    ∃ r', r'.bits = rest ∧ d.Tallies chunk
      (.field (.codeLength after ⟨table, some next⟩) blockSize streamCrc r') (word ++ back) := by
  have hfield : Reads (Field.read blockSize streamCrc (.codeLength draft ⟨table, running⟩)) back
      ⟨.field (.codeLength after ⟨table, some next⟩), blockSize, streamCrc⟩ :=
    hread.first (reads_pure _)
  obtain ⟨r', hrun, hrest⟩ := hfield r rest hbits
  have hhas : r.hasBits (Field.need (.codeLength draft ⟨table, running⟩)) = true := by
    rw [r.hasBits_iff, hbits, List.length_append]
    omega
  exact ⟨r', hrest, h.read (.field hhas hrun rfl) (by rw [hbits, hrest])⟩

end Decompressor

/-! ## Steps up -/

/-- The longest first length and steps up from it. -/
def climbBits (steps : Nat) : List Bool :=
  Bits.ofNat 5 31 ++ (List.replicate steps [true, false]).flatten

theorem climbBits_succ (steps : Nat) : climbBits (steps + 1) = climbBits steps ++ [true, false] := by
  rw [climbBits, climbBits, List.replicate_succ', List.flatten_append, List.flatten_singleton,
    List.append_assoc]

theorem Tally.ofBits_climbBits (steps : Nat) : ofBits (climbBits steps) = ⟨31 + steps, steps, false⟩ := by
  induction steps with
  | zero => rfl
  | succ steps ih =>
    have hle : 5 ≤ (climbBits steps).length := by
      rw [climbBits, List.length_append, Bits.length_ofNat]
      exact Nat.le_add_right 5 _
    rw [climbBits_succ, ofBits_append hle, ih, foldl_count_step]
    rfl

namespace Decompressor

variable {d : Decompressor} {chunk : List UInt8} {draft : Draft} {table blockSize : Nat}
  {streamCrc : UInt32} {r : BitReader}

theorem Tallies.climb {rest : List Bool} (steps : Nat)
    (h : d.Tallies chunk (.field (.codeLength draft ⟨table, none⟩) blockSize streamCrc r) [])
    (hbits : r.bits = climbBits steps ++ rest) :
    ∃ r', r'.bits = rest ∧ d.Tallies chunk (.field (.codeLength draft
      ⟨table, some ⟨Int32.ofInt (31 + steps), 0, false⟩⟩) blockSize streamCrc r')
      (climbBits steps) := by
  induction steps generalizing rest with
  | zero => exact h.reads (Field.reads_start blockSize draft table (by decide)) (Nat.le_refl 5) hbits
  | succ steps ih =>
    rw [climbBits_succ, List.append_assoc] at hbits
    obtain ⟨first, hfirst, hsteps⟩ := ih hbits
    obtain ⟨second, hsecond, halter⟩ :=
      hsteps.reads (Field.reads_alter blockSize draft table _ 0) (Nat.le_refl 1) hfirst
    obtain ⟨third, hthird, hdirection⟩ :=
      halter.reads (Field.reads_direction blockSize draft table _ 0 false) (Nat.le_refl 1) hsecond
    rw [climbBits_succ]
    rw [List.append_assoc] at hdirection
    exact ⟨third, hthird, hdirection⟩

/-- A stream that was read up to the code lengths of its first block. -/
def atTables : Decompressor :=
  (start.decompress [0x42, 0x5a, 0x68, 0x31, 0x31, 0x41, 0x59, 0x26, 0x53, 0x59, 0, 0, 0, 0, 0, 0, 0,
    0x40, 0, 0x40, 0, 0x60, 0, 0x6f, 0xbe]).next

theorem atTables_eq : ∃ draft,
    atTables = ⟨⟨.field (.codeLength draft ⟨0, none⟩), 100000, 0⟩, BitState.empty⟩ := by
  have hcursor : atTables.state.phase.cursor? = some ⟨0, none⟩ := by decide +kernel
  have hrest : atTables.state.blockSize = 100000 ∧ atTables.state.streamCrc = 0 ∧
      atTables.bits = BitState.empty := by decide +kernel
  obtain ⟨draft, hphase⟩ := Phase.eq_of_cursor? hcursor
  refine ⟨draft, ?_⟩
  rw [← hphase, ← hrest.2.2, ← hrest.2.1, ← hrest.1]

/-- Its first code length can be any number of steps above the longest first length. -/
theorem tallies_climbBits (steps : Nat) :
    ∃ draft r, atTables.Tallies (Bits.pack (climbBits steps)) (.field (.codeLength draft
      ⟨0, some ⟨Int32.ofInt (31 + steps), 0, false⟩⟩) 100000 0 r) (climbBits steps) := by
  obtain ⟨draft, hat⟩ := atTables_eq
  obtain ⟨pad, -, hpad⟩ := Bits.ofBytes_pack (climbBits steps)
  have hfirst : atTables.Tallies (Bits.pack (climbBits steps))
      (.field (.codeLength draft ⟨0, none⟩) 100000 0
        (BitReader.bind BitState.empty (Bits.pack (climbBits steps)))) [] := by
    refine .start (.decompress .start _) ⟨_, ?_, .refl⟩
    rw [hat]
    rfl
  obtain ⟨r, -, hr⟩ := hfirst.climb steps ((BitReader.bits_bind _ _).trans hpad)
  exact ⟨draft, r, hr⟩

/-- Whatever the bits are, the word that is kept after a number of steps in a table is the running
length itself exactly if there were at most `2 ^ 31 - 32` steps. Wherever calls come to a running
length, it is that of the bits of the table so far as far as a word of 32 bits can say it. -/
theorem running_length_kept (steps : Nat) :
    ((∀ (d : Decompressor) (chunk : List UInt8) (place : Place) (word : List Bool)
        (running : Running), d.Tallies chunk place word → place.running? = some running →
          (Tally.ofBits word).steps = steps →
            -2 ^ 31 ≤ (Tally.ofBits word).length ∧ (Tally.ofBits word).length < 2 ^ 31 ∧
              running.length.toInt = (Tally.ofBits word).length) ↔
        steps < 2 ^ 31 - 31) ∧
    ∀ (d : Decompressor) (chunk : List UInt8) (place : Place) (running : Running),
      place.running? = some running →
        ((∃ word, d.Tallies chunk place word) ↔ d.Reachable ∧ d.Passes chunk place) ∧
        ∀ word, d.Tallies chunk place word →
          running.length = Int32.ofInt (Tally.ofBits word).length := by
  refine ⟨⟨fun hfits => ?_, ?_⟩, fun d chunk place running hrunning =>
    ⟨⟨fun ⟨word, h⟩ => h.passes, fun ⟨hd, hplace⟩ => hd.exists_tallies hplace hrunning⟩,
      fun word h => h.length_eq hrunning⟩⟩
  · obtain ⟨draft, r, hclimb⟩ := tallies_climbBits steps
    have htally := Tally.ofBits_climbBits steps
    have hlt := (hfits _ _ _ _ _ hclimb rfl (by rw [htally])).2.1
    rw [htally] at hlt
    simp only at hlt
    omega
  · rintro hlt d chunk place word running h hrunning hsteps
    have hbounds := Tally.length_bounds word
    rw [hsteps] at hbounds
    have hge : -2 ^ 31 ≤ (Tally.ofBits word).length := by omega
    have hle : (Tally.ofBits word).length < 2 ^ 31 := by omega
    refine ⟨hge, hle, ?_⟩
    rw [h.length_eq hrunning]
    exact LengthText.wrapped_of_bounds hge hle

/-- One step more, and the length leaves the range of the word. -/
theorem running_length_wraps :
    ∃ (place : Place) (running : Running),
      atTables.Tallies (Bits.pack (climbBits (2 ^ 31 - 31))) place (climbBits (2 ^ 31 - 31)) ∧
      place.running? = some running ∧
      (Tally.ofBits (climbBits (2 ^ 31 - 31))).length = 2 ^ 31 ∧
      running.length.toInt = -2 ^ 31 := by
  generalize hsteps : 2 ^ 31 - 31 = steps
  have hlength : (31 + steps : Int) = 2 ^ 31 := by omega
  obtain ⟨draft, r, hclimb⟩ := tallies_climbBits steps
  refine ⟨_, _, hclimb, rfl, ?_, ?_⟩
  · rw [Tally.ofBits_climbBits]
    exact hlength
  · rw [hlength]
    rfl

end Decompressor

end Bunzip.Stream
