import Bunzip.Proofs.Block.Delivery

/-!
# The data of a complete block

Whatever its symbols were, the counts of an expansion are those of its bytes
(`Payload.counted_of_runChunks`), so a complete block can be walked through to its end. The bytes of
the walk are expanded a run at a time (`RunLength.expand`), which is what reading them one by one
with the last byte and its number of copies comes to (`RunLength.decode_eq_expand`).
-/

namespace Bunzip.Block

open Huffman

/-! ## Runs of a byte sequence -/

namespace RunLength

/-- The data of a byte sequence. Four equal bytes are followed by the number of further copies; a
byte that does not begin four equal ones is data itself, as are all bytes if less than five are
left. -/
def expand : List UInt8 → List UInt8
  | a :: b :: c :: d :: count :: rest =>
    if a = b ∧ b = c ∧ c = d then List.replicate (4 + count.toNat) a ++ expand rest
    else a :: expand (b :: c :: d :: count :: rest)
  | bytes => bytes

variable {byte : UInt8} {last : Option UInt8} {equal : Nat} {bytes : List UInt8}

theorem decode_zero (last : Option UInt8) (bytes : List UInt8) :
    decode last 0 bytes = decode none 0 bytes := by
  cases bytes with
  | nil => rw [decode, decode]
  | cons byte rest => rw [decode_cons (.inr rfl), decode_cons (.inr rfl)]

theorem decode_short (h : equal + (bytes.takeWhile (· == byte)).length < 4) :
    decode (some byte) equal bytes = decode none 0 bytes := by
  induction bytes generalizing equal with
  | nil => rw [decode, decode]
  | cons next rest ih =>
    by_cases hnext : next = byte
    · subst hnext
      rw [List.takeWhile_cons_of_pos (by simp), List.length_cons] at h
      rw [decode_cons_equal (by omega), decode_cons (.inr rfl), ih (by omega), ih (by omega)]
    · have hne : some byte ≠ some next := by
        intro heq
        exact hnext (Option.some.inj heq).symm
      rw [decode_cons (.inl hne), decode_cons (.inr rfl)]

theorem decode_of_length_le (hequal : equal < 4) (h : equal + bytes.length ≤ 4) :
    decode last equal bytes = bytes := by
  induction bytes generalizing last equal with
  | nil => rw [decode]
  | cons byte rest ih =>
    rw [List.length_cons] at h
    by_cases hlast : last = some byte
    · subst hlast
      by_cases hfour : equal + 1 = 4
      · obtain rfl : rest = [] := List.length_eq_zero_iff.1 (by omega)
        rw [decode.eq_def]
        simp only [ne_eq, not_true_eq_false, if_false, hfour]
      · rw [decode_cons_equal hfour, ih (by omega) (by omega)]
    · rw [decode_cons (.inl hlast), ih (by omega) (by omega)]

/-- Byte by byte a sequence says what it says run by run. -/
theorem decode_eq_expand (bytes : List UInt8) : decode none 0 bytes = expand bytes := by
  induction bytes using expand.induct with
  | case1 a b c d count rest hequal ih =>
    obtain ⟨rfl, rfl, rfl⟩ := hequal
    have hcopies : 4 + count.toNat = count.toNat + 1 + 1 + 1 + 1 := by omega
    rw [expand, if_pos ⟨rfl, rfl, rfl⟩, decode_cons (.inr rfl), decode_cons_equal (by omega),
      decode_cons_equal (by omega), decode_count, decode_zero, ih, hcopies]
    rfl
  | case2 a b c d count rest hne ih =>
    -- the copies of `a` in front are too few for a count
    have hshort : 1 + ((b :: c :: d :: count :: rest).takeWhile (· == a)).length < 4 := by
      by_cases hb : b = a
      · by_cases hc : c = a
        · have hd : d ≠ a := by
            intro hd
            exact hne ⟨hb.symm, hb.trans hc.symm, hc.trans hd.symm⟩
          simp [hb, hc, hd]
        · simp [hb, hc]
      · simp [hb]
    rw [expand, if_neg hne, decode_cons (.inr rfl), decode_short hshort, ih]
  | case3 bytes hfew =>
    have hlength : bytes.length ≤ 4 := by
      rcases bytes with _ | ⟨a, _ | ⟨b, _ | ⟨c, _ | ⟨d, _ | ⟨count, rest⟩⟩⟩⟩⟩
      case cons.cons.cons.cons.cons => exact (hfew a b c d count rest rfl).elim
      all_goals simp
    rw [decode_of_length_le (by omega) (by omega), expand]
    exact hfew

/-- A count that equals the byte of its run, and behind it four more of these bytes without one. -/
example : expand [2, 2, 2, 2, 2, 2, 2, 2, 2] = List.replicate 10 2 := by decide

end RunLength

/-! ## The end of the data -/

namespace Readout

variable {r after : Readout} {given data : Array UInt8} {byte : UInt8}

/-- A byte is one of the copies, of which there are some or which are filled in; none is given at
the end, where nothing changes. -/
theorem read_cases {byte : Option UInt8} (h : r.read = .ok (byte, after)) :
    (r.copies ≠ 0 ∧ r.give = (byte, after)) ∨ (byte = none ∧ after = r) ∨
      ∃ mid, r.fill = .ok mid ∧ mid.give = (byte, after) := by
  unfold read at h
  split at h
  · exact .inl ⟨‹_›, Except.ok.inj h⟩
  split at h
  · cases h
    exact .inr (.inl ⟨rfl, rfl⟩)
  split at h
  · cases h
  · rename_i mid hfill
    exact .inr (.inr ⟨mid, hfill, Except.ok.inj h⟩)

theorem last_of_give {byte : Option UInt8} (h : r.give = (byte, after)) :
    r.last = byte ∧ after.last = byte := by
  unfold give at h
  cases h
  exact ⟨rfl, rfl⟩

theorem last_of_read (h : r.read = .ok (some byte, after)) : after.last = some byte := by
  rcases read_cases h with ⟨-, hgive⟩ | ⟨hnone, -⟩ | ⟨mid, -, hgive⟩
  · exact (last_of_give hgive).2
  · cases hnone
  · exact (last_of_give hgive).2

theorem last_of_fill (h : r.fill = .ok after) : after.last ≠ none := by
  have hsupply (r : Readout) (byte : UInt8) (equal copies : Nat) :
      (r.supply byte equal copies).last ≠ none := Option.some_ne_none byte
  unfold fill at h
  split at h
  · cases h
  split at h
  · cases h
    apply hsupply
  split at h
  · cases h
    apply hsupply
  split at h
  · cases h
    apply hsupply
  split at h
  · cases h
  · cases h
    apply hsupply

theorem eq_of_read_none (hlast : r.last = none → r.copies = 0) (h : r.read = .ok (none, after)) :
    after = r := by
  rcases read_cases h with ⟨hcopies, hgive⟩ | ⟨-, hafter⟩ | ⟨mid, hfill, hgive⟩
  · exact absurd (hlast (last_of_give hgive).1) hcopies
  · exact hafter
  · exact absurd (last_of_give hgive).1 (last_of_fill hfill)

theorem read_of_drain (hlast : r.last = none → r.copies = 0)
    (h : r.drain given = .ok (data, after)) : after.read = .ok (none, after) := by
  fun_induction drain r given with
  | case1 => cases h
  | case2 r given last hread =>
    cases h
    obtain rfl := eq_of_read_none hlast hread
    exact hread
  | case3 r given byte mid hread ih =>
    -- from here on there is a last byte
    refine ih (fun hnone => ?_) h
    rw [last_of_read hread] at hnone
    cases hnone

end Readout

/-! ## Counts -/

namespace Expansion

variable {e after : Expansion} {done : Bool}

def Counted (e : Expansion) : Prop := Histogram e.counts e.bytes.toList

theorem counted_start (limit : Nat) (used : List UInt8) : (start limit used).Counted :=
  Histogram.nil

theorem counted_of_count (h : e.Counted) {copies : Nat} (hcount : e.count copies = .ok done after) :
    after.Counted := by
  unfold Expansion.count at hcount
  simp only at hcount
  split at hcount
  · cases hcount
  · cases hcount
    exact h

theorem counted_of_flush (h : e.Counted) (hflush : e.flush = .ok () after) : after.Counted := by
  unfold Expansion.flush at hflush
  simp only at hflush
  split at hflush
  · cases hflush
    exact h
  split at hflush
  · cases hflush
  · cases hflush
    show Histogram _ _
    rw [toList_pushCopies]
    exact h.append_replicate _ e.run

theorem counted_of_append (h : e.Counted) {position : Nat}
    (happend : e.append position = .ok done after) : after.Counted := by
  unfold Expansion.append at happend
  simp only at happend
  split at happend
  · cases happend
  split at happend
  · cases happend
  split at happend
  · cases happend
  · rename_i byte _
    cases happend
    show Histogram _ _
    rw [Array.toList_push]
    exact h.append_replicate byte 1

/-- Whatever a token says, it is counted if it is accepted. -/
theorem counted_of_accept (h : e.Counted) {token : Token}
    (haccept : e.accept token = .ok done after) : after.Counted := by
  cases token with
  | runA => exact counted_of_count h haccept
  | runB => exact counted_of_count h haccept
  | recent position =>
    simp only [accept] at haccept
    split at haccept
    · cases haccept
    · rename_i mid hflush
      exact counted_of_append (counted_of_flush h hflush) haccept
  | finish =>
    simp only [accept] at haccept
    split at haccept
    · cases haccept
    · rename_i mid hflush
      cases haccept
      exact counted_of_flush h hflush

end Expansion

namespace Payload

variable {p after : Payload} {r rest : BitReader}

theorem counted_of_step (h : p.expansion.Counted) {done : Bool}
    (hstep : p.step r = .ok done (after, rest)) : after.expansion.Counted := by
  obtain ⟨head, expansion, decoder⟩ := p
  simp only [step] at hstep
  split at hstep
  · cases hstep
  split at hstep
  · cases hstep
  · rename_i haccept
    cases hstep
    exact Expansion.counted_of_accept h haccept

/-- However far a payload is read, its bytes are counted, and at its end they are read out. -/
theorem counted_of_run (h : p.expansion.Counted) {readout : Option Readout}
    (hrun : p.run r = .ok readout (after, rest)) :
    after.expansion.Counted ∧ ∀ complete, readout = some complete → after.readout = .ok complete := by
  fun_induction run p r with
  | case1 => cases hrun
  | case2 => cases hrun
  | case3 p r _ mid next hstep complete hreadout =>
    cases hrun
    refine ⟨counted_of_step h hstep, fun other hother => ?_⟩
    cases hother
    exact hreadout
  | case4 p r _ mid next hstep ih => exact ih (counted_of_step h hstep) hrun
  | case5 =>
    cases hrun
    exact ⟨h, fun complete hcomplete => by cases hcomplete⟩

theorem counted_of_runChunks {chunks : List (List UInt8)} (h : p.expansion.Counted)
    {readout : Option Readout} (hrun : p.runChunks r chunks = .ok readout (after, rest)) :
    after.expansion.Counted ∧ ∀ complete, readout = some complete → after.readout = .ok complete := by
  induction chunks generalizing p r with
  | nil => exact counted_of_run h hrun
  | cons chunk chunks ih =>
    rw [runChunks] at hrun
    split at hrun
    · rename_i mid next hmid
      exact ih (counted_of_run h hmid).1 hrun
    · exact counted_of_run h hrun

theorem head_of_step {done : Bool} (hstep : p.step r = .ok done (after, rest)) :
    after.head = p.head := by
  obtain ⟨head, expansion, decoder⟩ := p
  simp only [step] at hstep
  split at hstep
  · cases hstep
  split at hstep
  · cases hstep
  · cases hstep
    rfl

theorem head_of_run {readout : Option Readout} (hrun : p.run r = .ok readout (after, rest)) :
    after.head = p.head := by
  fun_induction run p r with
  | case1 => cases hrun
  | case2 => cases hrun
  | case3 p r _ mid next hstep complete hreadout =>
    cases hrun
    exact head_of_step hstep
  | case4 p r _ mid next hstep ih => exact (ih hrun).trans (head_of_step hstep)
  | case5 =>
    cases hrun
    rfl

theorem head_of_runChunks {chunks : List (List UInt8)} {readout : Option Readout}
    (hrun : p.runChunks r chunks = .ok readout (after, rest)) : after.head = p.head := by
  induction chunks generalizing p r with
  | nil => exact head_of_run hrun
  | cons chunk chunks ih =>
    rw [runChunks] at hrun
    split at hrun
    · rename_i mid next hmid
      exact (ih hrun).trans (head_of_run hmid)
    · exact head_of_run hrun

/-- A complete payload is read out under its head, through a walk that gives as many bytes as the
block has. They are the unsorted column if its places fit in the links. -/
theorem gives_of_readout {readout : Readout} (h : p.expansion.Counted)
    (hreadout : p.readout = .ok readout) :
    ∃ walk bytes, readout = Readout.start walk p.head.randomised p.head.stored ∧
      walk.Gives bytes ∧ bytes.length = p.expansion.bytes.size ∧
      (p.expansion.bytes.size ≤ 2 ^ 24 →
        bytes = Rotations.unsort p.expansion.bytes.toList p.head.pointer) := by
  have hpointer := pointer_lt_of_readout hreadout
  obtain ⟨links, current, hstart, -, -⟩ := Walk.start_eq h hpointer
  obtain ⟨bytes, hlength, hgives⟩ := Walk.gives_of_closed (Walk.closed_start h hstart)
  have hunsort (hle : p.expansion.bytes.size ≤ 2 ^ 24) :
      bytes = Rotations.unsort p.expansion.bytes.toList p.head.pointer := by
    obtain ⟨walk, hwalk, hunsorted⟩ := Walk.gives_start h hle hpointer
    rw [hstart] at hwalk
    cases hwalk
    exact hgives.unique hunsorted
  rw [Array.toArray_toList] at hstart
  simp only [Payload.readout, hstart] at hreadout
  cases hreadout
  exact ⟨_, bytes, rfl, hgives, hlength, hunsort⟩

theorem gives_of_runChunks {limit : Nat} {head : Head} {used : List UInt8} {d : Decoder}
    {chunks : List (List UInt8)} {readout : Readout}
    (h : (start limit head used d).runChunks r chunks = .ok (some readout) (after, rest)) :
    ∃ walk bytes, readout = Readout.start walk head.randomised head.stored ∧
      walk.Gives bytes ∧ bytes.length = after.expansion.bytes.size ∧
      (after.expansion.bytes.size ≤ 2 ^ 24 →
        bytes = Rotations.unsort after.expansion.bytes.toList head.pointer) := by
  obtain ⟨hcounted, hreadout⟩ := counted_of_runChunks (Expansion.counted_start limit used) h
  rw [← show after.head = head from head_of_runChunks h]
  exact gives_of_readout hcounted (hreadout readout rfl)

/-! ## Data -/

/-- However a payload was suspended, when it is complete its walk gives as many bytes under their
masks as the block has, the bytes that are read are their expansion, and after these there are no
more. The checksum is that of the bytes that were read. -/
theorem reads_data {limit : Nat} {head : Head} {used : List UInt8} {d : Decoder}
    {chunks : List (List UInt8)} {readout : Readout}
    (h : (start limit head used d).runChunks r chunks = .ok (some readout) (after, rest)) :
    ∃ bytes walked data last,
      readout.nextBytes readout.walk.left = .ok (bytes, walked) ∧
      bytes.length = after.expansion.bytes.size ∧ walked.walk.left = 0 ∧
      readout.drain #[] = .ok (data, last) ∧ data.toList = RunLength.expand bytes ∧
      last.crc.value = Crc.ofBytes data.toList ∧ last.read = .ok (none, last) ∧
      ∀ original, bytes = RunLength.encode original → data.toList = original := by
  obtain ⟨hcounted, hreadout⟩ := counted_of_runChunks (Expansion.counted_start limit used) h
  have hcomplete := hreadout readout rfl
  have hpointer := pointer_lt_of_readout hcomplete
  obtain ⟨links, current, hstart, -, -⟩ := Walk.start_eq hcounted hpointer
  obtain ⟨plain, hlength, hgives⟩ := Walk.gives_of_closed (Walk.closed_start hcounted hstart)
  rw [Array.toArray_toList] at hstart
  simp only [Payload.readout, hstart] at hcomplete
  cases hcomplete
  obtain ⟨walked, hwalked, hend⟩ :=
    Readout.nextBytes_start hgives after.head.randomised after.head.stored
  obtain ⟨data, last, hdrain, hdata, hcrc, -⟩ :=
    Readout.drain_start hgives after.head.randomised after.head.stored
  refine ⟨_, walked, data, last, hwalked, ?_, hend, hdrain, ?_, hcrc, ?_, fun original horiginal => ?_⟩
  · rw [← (supplies_masked hgives after.head.randomised).left_eq, Array.length_toList]
  · rw [hdata, RunLength.decode_eq_expand]
  · exact Readout.read_of_drain (fun _ => rfl) hdrain
  · rw [hdata, horiginal, RunLength.decode_encode]

/-- A run of seven in five bytes, the last of which is at once the byte and the count. -/
theorem reads_data_count :
    ∃ readout after rest data last,
      (start 5 ⟨0, false, 0⟩ [3] ⟨#[Table.ofLengths [2, 2, 2]], #[0], 0⟩).runChunks
        (BitReader.bind BitState.empty [0x18, 0, 0, 0]) [] = .ok (some readout) (after, rest) ∧
      readout.drain #[] = .ok (data, last) ∧ data.toList = List.replicate 7 3 := by
  have hserves : Decoder.Serves ⟨#[Table.ofLengths [2, 2, 2]], #[0], 0⟩
      ([0, 1] ++ [(Expansion.start 5 [3]).used.size + 1])
      [false, false, false, true, true, false] :=
    ⟨[false, false], _, _, rfl, Decoder.reads_next rfl rfl rfl (by decide),
      [false, true], _, _, rfl, Decoder.reads_next rfl rfl rfl (by decide),
      [true, false], [], _, rfl, Decoder.reads_next rfl rfl rfl (by decide), rfl⟩
  have hcomplete : ∃ walk after rest,
      (start 5 ⟨0, false, 0⟩ [3] ⟨#[Table.ofLengths [2, 2, 2]], #[0], 0⟩).runChunks
        (BitReader.bind BitState.empty [0x18, 0, 0, 0]) [] =
          .ok (some (Readout.start walk false 0)) (after, rest) ∧
      walk.Gives (Rotations.unsort [3, 3, 3, 3, 3] 0) ∧ rest.bits = List.replicate 26 false :=
    run_symbols (Expansion.holds_start 5 (by simp) (by decide)) (by decide) hserves (by decide)
      rfl (by decide) (by decide) (by decide) rfl (by decide)
  obtain ⟨walk, after, rest, hrun, hgives, -⟩ := hcomplete
  have hrows : Rotations.sorted [3, 3, 3, 3, 3] = List.replicate 5 [3, 3, 3, 3, 3] :=
    Rotations.sorted_eq (by decide) (by decide)
  have hunsort : Rotations.unsort [3, 3, 3, 3, 3] 0 = [3, 3, 3, 3, 3] := by
    have hcolumn : Rotations.lastColumn [3, 3, 3, 3, 3] = [3, 3, 3, 3, 3] := by
      rw [Rotations.lastColumn, hrows]
      rfl
    have hrow := Rotations.unsort_lastColumn (show (Rotations.sorted [3, 3, 3, 3, 3])[0]? = _ by
      rw [hrows]
      rfl)
    rwa [hcolumn] at hrow
  obtain ⟨bytes, walked, data, last, hbytes, -, -, hdrain, hdata, -⟩ := reads_data hrun
  obtain ⟨walked', hwalked, -⟩ := Readout.nextBytes_start hgives false 0
  rw [show (Readout.start walk false 0).walk.left = walk.left from rfl, hwalked, hunsort] at hbytes
  cases hbytes
  exact ⟨_, after, rest, data, last, hrun, hdrain, hdata⟩

end Payload

end Bunzip.Block
