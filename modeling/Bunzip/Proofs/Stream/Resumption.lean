import Bunzip.Proofs.Stream.Lookahead

/-!
# Resumed reading

Reading stops where the bits for the next step are missing. `State.twin_resume` states that going on
from there with more bits is the same as reading all of them at once, and `State.twin_extend` that a
stop for another reason does not depend on what follows. Where the unread bits lie, among held bits,
carry and chunk, never matters (`State.twin_congr`).
-/

namespace Bunzip

open Scan Huffman

/-! ## Payloads -/

namespace Block.Payload

/-- Two runs in a payload do the same, and the second has `extra` bits more to go on with. -/
inductive Twin {α : Type} (extra : List Bool) : Outcome α → Outcome α → Prop
  | ok {value : α} {p : Payload} {r r' : BitReader} (h : r'.bits = r.bits ++ extra) :
    Twin extra (.ok value (p, r)) (.ok value (p, r'))
  | error {fault : Fault} {p : Payload} {r r' : BitReader} :
    Twin extra (.error fault (p, r)) (.error fault (p, r'))

variable {p after : Payload} {r r' rest : BitReader} {extra : List Bool}

theorem twin_step (h : p.decoder.Searchable) (hn : Format.maxSearch ≤ r.bits.length)
    (hr : r'.bits = r.bits ++ extra) : Twin extra (p.step r) (p.step r') := by
  obtain ⟨head, expansion, decoder⟩ := p
  have hnext := (Decoder.decided_next h).extend hn hr
  simp only [step]
  generalize decoder.next r = first at hnext ⊢
  generalize decoder.next r' = second at hnext ⊢
  cases hnext with
  | error => exact .error
  | @ok value s s' hbits =>
    obtain ⟨symbol, decoder⟩ := value
    simp only
    split
    · exact .error
    · exact .ok hbits

theorem searchable_step {done : Bool} (h : p.decoder.Searchable)
    (hstep : p.step r = .ok done (after, rest)) : after.decoder.Searchable := by
  obtain ⟨head, expansion, decoder⟩ := p
  simp only [step] at hstep
  split at hstep
  · cases hstep
  · rename_i symbol decoder' r' hnext
    split at hstep
    · cases hstep
    · cases hstep
      exact Decoder.Searchable.next h hnext

theorem searchable_run {readout : Option Readout} (h : p.decoder.Searchable)
    (hrun : p.run r = .ok readout (after, rest)) : after.decoder.Searchable := by
  fun_induction run p r with
  | case1 => cases hrun
  | case2 => cases hrun
  | case3 p r _ q s hstep => cases hrun; exact searchable_step h hstep
  | case4 p r _ q s hstep ih => exact ih (searchable_step h hstep) hrun
  | case5 => cases hrun; exact h

theorem run_of_lt (h : r.bits.length < Format.maxSearch) : p.run r = .ok none (p, r) := by
  rw [run, if_neg]
  rw [BitReader.hasBits_iff]
  omega

theorem run_of_le (h : Format.maxSearch ≤ r.bits.length) :
    p.run r = match p.step r with
      | .error fault stop => .error fault stop
      | .ok true (q, s) =>
        match q.readout with
        | .error fault => .error fault (q, s)
        | .ok readout => .ok (some readout) (q, s)
      | .ok false (q, s) => q.run s := by
  rw [run, if_pos ((r.hasBits_iff _).2 h)]
  generalize p.step r = result
  cases result with
  | error fault stop => rfl
  | ok done after => cases done <;> rfl

/-- A payload stops without a fault only where a longest search lacks bits. -/
theorem length_bits_lt_of_run (h : p.run r = .ok none (after, rest)) :
    rest.bits.length < Format.maxSearch := by
  fun_induction run p r with
  | case1 => cases h
  | case2 => cases h
  | case3 => cases h
  | case4 p r _ q s _ ih => exact ih h
  | case5 p r hbits =>
    cases h
    rwa [BitReader.hasBits_iff, Nat.not_le] at hbits

/-- A payload reads the same bits wherever they lie. -/
theorem twin_run_congr (h : p.decoder.Searchable) (hr : r'.bits = r.bits) :
    Twin [] (p.run r) (p.run r') := by
  induction hbudget : p.decoder.budget using Nat.strongRecOn generalizing p r r' with
  | ind n ih =>
    have hr' : r'.bits = r.bits ++ [] := by rw [hr, List.append_nil]
    by_cases hle : Format.maxSearch ≤ r.bits.length
    · have htwin := twin_step h hle hr'
      rw [run_of_le hle, run_of_le (hr ▸ hle)]
      generalize hstep : p.step r = first at htwin ⊢
      generalize p.step r' = second at htwin ⊢
      cases htwin with
      | error => exact .error
      | @ok done q s s' hbits =>
        cases done with
        | false =>
          have hlt := (step_eq_ok hstep).1
          exact ih _ (hbudget ▸ hlt) (searchable_step h hstep) (by simpa using hbits) rfl
        | true =>
          simp only
          cases q.readout with
          | error fault => exact .error
          | ok readout => exact .ok hbits
    · rw [run_of_lt (by omega), run_of_lt (by rw [hr]; omega)]
      exact .ok hr'

/-- A payload that is read in two parts: either the first part settles it, or going on from where it
stopped is the same as reading both at once. -/
theorem twin_run_append (h : p.decoder.Searchable) (hr : r'.bits = r.bits ++ extra) :
    (∀ after rest, p.run r ≠ .ok none (after, rest)) ∧ Twin extra (p.run r) (p.run r') ∨
      ∃ after rest, p.run r = .ok none (after, rest) ∧
        ∀ r'', r''.bits = rest.bits ++ extra → Twin [] (after.run r'') (p.run r') := by
  induction hbudget : p.decoder.budget using Nat.strongRecOn generalizing p r r' with
  | ind n ih =>
    by_cases hle : Format.maxSearch ≤ r.bits.length
    · have hle' : Format.maxSearch ≤ r'.bits.length := by rw [hr, List.length_append]; omega
      have htwin := twin_step h hle hr
      rw [run_of_le hle, run_of_le hle']
      generalize hstep : p.step r = first at htwin ⊢
      generalize p.step r' = second at htwin ⊢
      cases htwin with
      | error =>
        refine .inl ⟨?_, .error⟩
        intro after rest hrun
        cases hrun
      | @ok done q s s' hbits =>
        cases done with
        | false =>
          have hlt := (step_eq_ok hstep).1
          exact ih _ (hbudget ▸ hlt) (searchable_step h hstep) hbits rfl
        | true =>
          simp only
          cases q.readout with
          | error fault =>
            refine .inl ⟨?_, .error⟩
            intro after rest hrun
            cases hrun
          | ok readout =>
            refine .inl ⟨?_, .ok hbits⟩
            intro after rest hrun
            cases hrun
    · rw [run_of_lt (by omega)]
      exact .inr ⟨p, r, rfl, fun r'' hr'' => twin_run_congr h (hr.trans hr''.symm)⟩

end Block.Payload

/-! ## Streams -/

namespace Stream

/-- Two readings stop in the same state for the same reason, and the second has `extra` bits more to
go on with. After a fault nothing is left to go on with. -/
inductive Stop.Twin (extra : List Bool) : Stop → Stop → Prop
  | stop {state : State} {halt : Halt} {r r' : BitReader} (h : r'.bits = r.bits ++ extra) :
    Twin extra ⟨state, r, halt⟩ ⟨state, r', halt⟩
  | failed {state : State} {fault : Fault} {r r' : BitReader} :
    Twin extra ⟨state, r, .failed fault⟩ ⟨state, r', .failed fault⟩

/-- The number of bits that must be there before anything is read. -/
def Phase.need : Phase → Nat
  | .field next => next.need
  | .payload _ => Format.maxSearch
  | .ended => 0
  | .closed => 0

theorem Field.need_le (field : Field) :
    field.need ≤ 80 ∨ ∃ head groups, field = .usedBitmaps head groups := by
  cases field with
  | usedBitmaps head groups => exact .inr ⟨head, groups, rfl⟩
  | codeLength draft cursor =>
    refine .inl ?_
    simp only [Field.need]
    split <;> decide
  | _ => exact .inl (by simp [Field.need])

theorem Phase.need_le (phase : Phase) : phase.need ≤ 259 := by
  cases phase with
  | field next =>
    show next.need ≤ 259
    rcases next.need_le with hle | ⟨head, groups, rfl⟩
    · omega
    · have hgroups := UsedMap.flagged_length_le groups
      simp only [Field.need]
      omega
  | payload => exact (show Format.maxSearch ≤ 259 by decide)
  | ended => exact Nat.zero_le _
  | closed => exact Nat.zero_le _

namespace State

variable {s : State} {r r' : BitReader} {extra : List Bool} {blockSize : Nat} {streamCrc : UInt32}
  {field : Field} {payload : Block.Payload}

theorem advance_of_lt (h : r.bits.length < field.need) :
    advance ⟨.field field, blockSize, streamCrc⟩ r =
      ⟨⟨.field field, blockSize, streamCrc⟩, r, .starved⟩ := by
  rw [advance, if_neg]
  rw [BitReader.hasBits_iff]
  omega

theorem advance_of_le (h : field.need ≤ r.bits.length) :
    advance ⟨.field field, blockSize, streamCrc⟩ r =
      match field.read blockSize streamCrc r with
      | .error fault s => ⟨⟨.ended, blockSize, streamCrc⟩, s, .failed fault⟩
      | .ok after s => after.advance s := by
  rw [advance, if_pos ((r.hasBits_iff _).2 h)]
  split <;> simp only [*]

theorem advance_payload :
    advance ⟨.payload payload, blockSize, streamCrc⟩ r =
      readPayload blockSize streamCrc payload r := by
  rw [advance]

/-- The byte that is begun behind a complete payload is not lost. -/
theorem bits_refill_ite (r : BitReader) (p : Prop) [Decidable p] :
    (if p then r.refill else r).bits = r.bits := by
  split
  · exact r.bits_refill
  · rfl

theorem twin_readPayload {payload' : Block.Payload}
    (h : Block.Payload.Twin extra (payload.run r) (payload'.run r')) :
    Stop.Twin extra (readPayload blockSize streamCrc payload r)
      (readPayload blockSize streamCrc payload' r') := by
  unfold readPayload
  generalize payload.run r = first at h ⊢
  generalize payload'.run r' = second at h ⊢
  cases h with
  | error => exact .failed
  | @ok readout p s s' hbits =>
    cases readout with
    | none => exact .stop hbits
    | some readout => exact .stop (by rw [bits_refill_ite, bits_refill_ite, hbits])

/-- A stream reads the same bits wherever they lie. -/
theorem twin_congr (h : s.Sound) (hr : r'.bits = r.bits) :
    Stop.Twin [] (s.advance r) (s.advance r') := by
  have hr' : r'.bits = r.bits ++ [] := by rw [hr, List.append_nil]
  induction hlen : r.bits.length using Nat.strongRecOn generalizing s r r' with
  | ind n ih =>
    obtain ⟨phase, blockSize, streamCrc⟩ := s
    cases phase with
    | field field =>
      by_cases hle : field.need ≤ r.bits.length
      · have htwin := (Field.decided_read blockSize streamCrc h).extend hle hr'
        rw [advance_of_le hle, advance_of_le (hr ▸ hle)]
        generalize hread : field.read blockSize streamCrc r = first at htwin ⊢
        generalize field.read blockSize streamCrc r' = second at htwin ⊢
        cases htwin with
        | error => exact .failed
        | @ok after s s' hbits =>
          have hlt := Field.spends_read _ _ _ _ _ _ hread
          have hsound := Field.gives_read _ _ h _ _ _ hread
          exact ih _ (by omega) hsound (by simpa using hbits) hbits rfl
      · rw [advance_of_lt (by omega), advance_of_lt (by rw [hr]; omega)]
        exact .stop hr'
    | payload payload =>
      rw [advance_payload, advance_payload]
      exact twin_readPayload (Block.Payload.twin_run_congr h hr)
    | ended => simp only [advance]; exact .stop hr'
    | closed => simp only [advance]; exact .stop hr'

theorem readPayload_of_none {after : Block.Payload} {rest : BitReader}
    (h : payload.run r = .ok none (after, rest)) :
    readPayload blockSize streamCrc payload r =
      ⟨⟨.payload after, blockSize, streamCrc⟩, rest, .starved⟩ := by
  rw [readPayload, h]

theorem halt_readPayload_ne (h : ∀ after rest, payload.run r ≠ .ok none (after, rest)) :
    (readPayload blockSize streamCrc payload r).halt ≠ .starved := by
  unfold readPayload
  split
  · intro hstarved
    cases hstarved
  · exact absurd ‹_› (h _ _)
  · intro hstarved
    cases hstarved

theorem sound_readPayload (h : payload.decoder.Searchable) :
    (readPayload blockSize streamCrc payload r).state.Sound := by
  unfold readPayload
  split
  · trivial
  · rename_i hrun
    exact Block.Payload.searchable_run h hrun
  · trivial

theorem sound_advance (h : s.Sound) (r : BitReader) : (s.advance r).state.Sound := by
  fun_induction advance s r with
  | case1 => trivial
  | case2 r blockSize streamCrc field _ after rest hread ih =>
    exact ih (Field.gives_read _ _ h _ _ _ hread)
  | case3 => exact h
  | case4 => exact sound_readPayload h
  | case5 => trivial
  | case6 => trivial

/-- A stream that is read in two parts: either the first part settles it, or going on from where it
stopped is the same as reading both at once. -/
theorem twin_append (h : s.Sound) (hr : r'.bits = r.bits ++ extra) :
    (s.advance r).halt ≠ .starved ∧ Stop.Twin extra (s.advance r) (s.advance r') ∨
      (s.advance r).halt = .starved ∧ ∀ r'', r''.bits = (s.advance r).reader.bits ++ extra →
        Stop.Twin [] ((s.advance r).state.advance r'') (s.advance r') := by
  induction hlen : r.bits.length using Nat.strongRecOn generalizing s r r' with
  | ind n ih =>
    obtain ⟨phase, blockSize, streamCrc⟩ := s
    cases phase with
    | field field =>
      by_cases hle : field.need ≤ r.bits.length
      · have hle' : field.need ≤ r'.bits.length := by rw [hr, List.length_append]; omega
        have htwin := (Field.decided_read blockSize streamCrc h).extend hle hr
        rw [advance_of_le hle, advance_of_le hle']
        generalize hread : field.read blockSize streamCrc r = first at htwin ⊢
        generalize field.read blockSize streamCrc r' = second at htwin ⊢
        cases htwin with
        | error =>
          refine .inl ⟨?_, .failed⟩
          intro hstarved
          cases hstarved
        | @ok after s s' hbits =>
          have hlt := Field.spends_read _ _ _ _ _ _ hread
          exact ih _ (by omega) (Field.gives_read _ _ h _ _ _ hread) hbits rfl
      · rw [advance_of_lt (by omega)]
        exact .inr ⟨rfl, fun r'' hr'' => twin_congr h (hr.trans hr''.symm)⟩
    | payload payload =>
      rw [advance_payload, advance_payload]
      rcases Block.Payload.twin_run_append h hr with ⟨hne, htwin⟩ | ⟨after, rest, hrun, hresume⟩
      · exact .inl ⟨halt_readPayload_ne hne, twin_readPayload htwin⟩
      · rw [readPayload_of_none hrun]
        refine .inr ⟨rfl, fun r'' hr'' => ?_⟩
        rw [advance_payload]
        exact twin_readPayload (hresume r'' hr'')
    | ended | closed =>
      simp only [advance]
      refine .inl ⟨?_, .stop hr⟩
      intro hstarved
      cases hstarved

theorem advance_of_need (h : r.bits.length < s.phase.need) : s.advance r = ⟨s, r, .starved⟩ := by
  obtain ⟨phase, blockSize, streamCrc⟩ := s
  cases phase with
  | field field => exact advance_of_lt h
  | payload payload =>
    rw [advance_payload, readPayload_of_none (Block.Payload.run_of_lt h)]
  | ended => exact absurd h (Nat.not_lt_zero _)
  | closed => exact absurd h (Nat.not_lt_zero _)

/-- Reading stops for want of bits only where fewer are left than are needed. -/
theorem need_of_starved (h : (s.advance r).halt = .starved) :
    (s.advance r).reader.bits.length < (s.advance r).state.phase.need := by
  fun_induction advance s r with
  | case1 => cases h
  | case2 r blockSize streamCrc field _ after rest hread ih => exact ih h
  | case3 r field blockSize streamCrc hbits =>
    rw [BitReader.hasBits_iff, Nat.not_le] at hbits
    exact hbits
  | case4 r payload blockSize streamCrc =>
    unfold readPayload at h ⊢
    split at h
    · cases h
    · rename_i hrun
      exact Block.Payload.length_bits_lt_of_run hrun
    · cases h
  | case5 => cases h
  | case6 => cases h

/-- Where reading has stopped for want of bits it stops again. -/
theorem advance_again (hstarved : (s.advance r).halt = .starved)
    (hr : r'.bits = (s.advance r).reader.bits) :
    (s.advance r).state.advance r' = ⟨(s.advance r).state, r', .starved⟩ :=
  advance_of_need (by rw [hr]; exact need_of_starved hstarved)

theorem phase_of_starved (h : (s.advance r).halt = .starved) :
    (s.advance r).state.phase ≠ .ended ∧ (s.advance r).state.phase ≠ .closed := by
  have hneed := need_of_starved h
  constructor
  all_goals
    intro hphase
    rw [hphase] at hneed
    exact absurd hneed (Nat.not_lt_zero _)

end State

end Stream

end Bunzip
