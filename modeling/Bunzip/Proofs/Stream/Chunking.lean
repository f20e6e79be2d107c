import Bunzip.Proofs.Stream.Resumption

/-!
# Chunks are invisible

A stream may be cut into chunks anywhere. What a caller learns from feeding the chunks, the
`Outcome`, is what it learns from feeding the data at once (`outcome_eq_of_flatten`).

A call depends on the state and on the unread bits alone, kept ones and those of the chunk together
(`twin_decompress_congr`); a call that is suspended can be made up for by a later one with more bits
(`twin_decompress_append`). Both pass from calls to the drain of a chunk, and from there to any
number of chunks, since a suspended decompressor waits: without input it does nothing.
-/

namespace Bunzip.Stream

/-- The bits that a call with this chunk can read. -/
def Decompressor.unread (d : Decompressor) (chunk : List UInt8) : List Bool :=
  d.bits.bits ++ Bits.ofBytes chunk

/-- The bits that a call has left. -/
def Call.unread (call : Call) : List Bool := call.next.unread call.rest

def Call.isSuspended (call : Call) : Bool :=
  match call.result with
  | .ok .suspended => true
  | _ => false

/-- What a list of calls gave, in order, apart from requests for more input. -/
def reported (calls : List Call) : List (Except Fault Event) :=
  (calls.filter fun call => !call.isSuspended).map (·.result)

def Decompressor.after (d : Decompressor) (calls : List Call) : Decompressor :=
  calls.foldl (fun _ call => call.next) d

/-- What a list of calls gave, and the state after it. -/
def Decompressor.trace (d : Decompressor) (calls : List Call) :
    List (Except Fault Event) × State :=
  (reported calls, (d.after calls).state)

/-- What a caller learns from feeding chunks. -/
structure Outcome where
  results : List (Except Fault Event)
  finished : Bool
  streamCrc : UInt32
  blockSize : Nat

/-- The outcome of feeding chunks to a decompressor. -/
def Decompressor.outcome (d : Decompressor) (chunks : List (List UInt8)) : Outcome :=
  let calls := (d.feed chunks).flatten
  let last := d.after calls
  ⟨reported calls, last.isFinished, last.state.streamCrc, last.state.blockSize⟩

theorem Call.isSuspended_iff {call : Call} :
    call.isSuspended = true ↔ call.result = .ok .suspended := by
  unfold isSuspended
  split <;> simp_all

theorem reported_append (front back : List Call) :
    reported (front ++ back) = reported front ++ reported back := by
  simp [reported]

theorem reported_singleton {call : Call} (h : call.result ≠ .ok .suspended) :
    reported [call] = [call.result] := by
  have hopen : call.isSuspended = false :=
    Bool.eq_false_iff.2 fun hsuspended => h (Call.isSuspended_iff.1 hsuspended)
  rw [reported, List.filter_cons_of_pos (by rw [hopen]; rfl)]
  rfl

theorem Decompressor.after_append (d : Decompressor) (front back : List Call) :
    d.after (front ++ back) = (d.after front).after back :=
  List.foldl_append

/-! ## Calls -/

/-- Two calls give the same and lead to the same state, and the second has left `extra` bits more.
After a fault nothing is left. -/
structure Call.Twin (extra : List Bool) (a b : Call) : Prop where
  result : b.result = a.result
  state : b.next.state = a.next.state
  unread : (∀ fault, a.result ≠ .error fault) → b.unread = a.unread ++ extra

namespace Decompressor

variable {d d' : Decompressor} {chunk chunk' : List UInt8} {extra : List Bool}

theorem unread_suspend (state : State) (r : BitReader) :
    unread ⟨state, r.suspend⟩ [] = r.bits := by
  simp [unread]

theorem unread_release (state : State) (r : BitReader) :
    unread ⟨state, r.release⟩ r.chunk = r.bits :=
  r.bits_release

theorem twin_settle {a b : Stop} (h : Stop.Twin extra a b) :
    Call.Twin extra (settle a chunk) (settle b chunk') := by
  cases h with
  | failed => exact ⟨rfl, rfl, fun hne => absurd rfl (hne _)⟩
  | @stop state halt r r' hbits =>
    cases halt with
    | starved =>
      refine ⟨rfl, rfl, fun _ => ?_⟩
      show unread ⟨state, r'.suspend⟩ [] = unread ⟨state, r.suspend⟩ [] ++ extra
      rw [unread_suspend, unread_suspend, hbits]
    | ended =>
      refine ⟨rfl, rfl, fun _ => ?_⟩
      show unread ⟨state, r'.release⟩ r'.chunk = unread ⟨state, r.release⟩ r.chunk ++ extra
      rw [unread_release, unread_release, hbits]
    | failed => exact ⟨rfl, rfl, fun hne => absurd rfl (hne _)⟩
    | complete readout =>
      simp only [settle, deliver]
      split
      · exact ⟨rfl, rfl, fun hne => absurd rfl (hne _)⟩
      split
      · exact ⟨rfl, rfl, fun hne => absurd rfl (hne _)⟩
      refine ⟨rfl, rfl, fun _ => ?_⟩
      show unread ⟨_, r'.release⟩ r'.chunk = unread ⟨_, r.release⟩ r.chunk ++ extra
      rw [unread_release, unread_release, hbits]

theorem decompress_eq_settle (h : d.state.phase ≠ .closed) :
    d.decompress chunk = settle (d.state.advance (BitReader.bind d.bits chunk)) chunk := by
  obtain ⟨⟨phase, blockSize, streamCrc⟩, bits⟩ := d
  cases phase with
  | closed => exact absurd rfl h
  | ended => simp only [decompress, State.advance]; rfl
  | field => rfl
  | payload => rfl

theorem decompress_closed (h : d.state.phase = .closed) :
    d.decompress chunk = ⟨.error (.usage .closed), chunk, none, d⟩ := by
  obtain ⟨⟨phase, blockSize, streamCrc⟩, bits⟩ := d
  cases h
  rfl

theorem decompress_of_ended (h : d.state.phase = .ended) (chunk : List UInt8) :
    d.decompress chunk = ⟨.ok .endOfStream, chunk, none, d⟩ := by
  obtain ⟨⟨phase, blockSize, streamCrc⟩, bits⟩ := d
  cases h
  rfl

theorem settle_starved {stop : Stop} (h : stop.halt = .starved) :
    settle stop chunk = ⟨.ok .suspended, [], none, ⟨stop.state, stop.reader.suspend⟩⟩ := by
  obtain ⟨state, r, halt⟩ := stop
  cases h
  rfl

theorem result_settle {stop : Stop} :
    (settle stop chunk).result = .ok .suspended ↔ stop.halt = .starved := by
  obtain ⟨state, r, halt⟩ := stop
  cases halt with
  | complete readout =>
    simp only [settle, deliver]
    split
    · simp
    · split <;> simp
  | _ => simp [settle]

theorem sound_settle {stop : Stop} (h : stop.state.Sound) :
    (settle stop chunk).next.state.Sound := by
  obtain ⟨state, r, halt⟩ := stop
  cases halt with
  | complete readout =>
    simp only [settle, deliver]
    split
    · trivial
    · split
      · trivial
      · exact h
  | _ => exact h

theorem sound_decompress (h : d.state.Sound) (chunk : List UInt8) :
    (d.decompress chunk).next.state.Sound := by
  by_cases hclosed : d.state.phase = .closed
  · rw [decompress_closed hclosed]
    exact h
  · rw [decompress_eq_settle hclosed]
    exact sound_settle (State.sound_advance h _)

/-- A call depends on the state and the unread bits alone. -/
theorem twin_decompress_congr (h : d.state.Sound) (hstate : d'.state = d.state)
    (hunread : d'.unread chunk' = d.unread chunk) :
    Call.Twin [] (d.decompress chunk) (d'.decompress chunk') := by
  by_cases hclosed : d.state.phase = .closed
  · rw [decompress_closed hclosed, decompress_closed (hstate ▸ hclosed)]
    exact ⟨rfl, hstate, fun hne => absurd rfl (hne _)⟩
  · rw [decompress_eq_settle hclosed, decompress_eq_settle (hstate ▸ hclosed), hstate]
    exact twin_settle (State.twin_congr h hunread)

/-- A call with `extra` bits more: either they are left over, or a call that is suspended without
them is made up for by a later one that has them. -/
theorem twin_decompress_append (h : d.state.Sound) (hstate : d'.state = d.state)
    (hunread : d'.unread chunk' = d.unread chunk ++ extra) :
    (d.decompress chunk).result ≠ .ok .suspended ∧
        Call.Twin extra (d.decompress chunk) (d'.decompress chunk') ∨
      (d.decompress chunk).result = .ok .suspended ∧
        ∀ (e : Decompressor) (later : List UInt8), e.state = (d.decompress chunk).next.state →
          e.unread later = (d.decompress chunk).unread ++ extra →
            Call.Twin [] (e.decompress later) (d'.decompress chunk') := by
  by_cases hclosed : d.state.phase = .closed
  · rw [decompress_closed hclosed, decompress_closed (hstate ▸ hclosed)]
    exact .inl ⟨nofun, rfl, hstate, fun hne => absurd rfl (hne _)⟩
  rw [decompress_eq_settle hclosed, decompress_eq_settle (hstate ▸ hclosed), hstate]
  have hbits : (BitReader.bind d'.bits chunk').bits = (BitReader.bind d.bits chunk).bits ++ extra :=
    hunread
  rcases State.twin_append h hbits with ⟨hne, htwin⟩ | ⟨hstarved, hresume⟩
  · exact .inl ⟨fun hresult => hne (result_settle.1 hresult), twin_settle htwin⟩
  · refine .inr ⟨result_settle.2 hstarved, fun e later hstate' hunread' => ?_⟩
    have hopen := (State.phase_of_starved hstarved).2
    rw [settle_starved hstarved] at hstate' hunread'
    rw [decompress_eq_settle (by rw [hstate']; exact hopen), hstate']
    refine twin_settle (hresume (BitReader.bind e.bits later) ?_)
    exact hunread'.trans (congrArg (· ++ extra) (unread_suspend _ _))

theorem rest_of_suspended (h : (d.decompress chunk).result = .ok .suspended) :
    (d.decompress chunk).rest = [] := by
  by_cases hclosed : d.state.phase = .closed
  · rw [decompress_closed hclosed] at h
    cases h
  · rw [decompress_eq_settle hclosed] at h ⊢
    rw [settle_starved (result_settle.1 h)]

theorem isFinished_of_suspended (h : (d.decompress chunk).result = .ok .suspended) :
    (d.decompress chunk).next.isFinished = false := by
  by_cases hclosed : d.state.phase = .closed
  · rw [decompress_closed hclosed] at h
    cases h
  · rw [decompress_eq_settle hclosed] at h ⊢
    have hopen := State.phase_of_starved (result_settle.1 h)
    rw [settle_starved (result_settle.1 h)]
    unfold isFinished
    split
    · exact absurd ‹_› hopen.1
    · exact absurd ‹_› hopen.2
    · rfl

/-- Without further input a suspended decompressor does nothing. -/
theorem waiting_decompress (hresult : (d.decompress chunk).result = .ok .suspended)
    (hstate : d'.state = (d.decompress chunk).next.state)
    (hunread : d'.unread chunk' = (d.decompress chunk).unread) :
    (d'.decompress chunk').result = .ok .suspended ∧ (d'.decompress chunk').next.state = d'.state := by
  by_cases hclosed : d.state.phase = .closed
  · rw [decompress_closed hclosed] at hresult
    cases hresult
  rw [decompress_eq_settle hclosed] at hresult hstate hunread
  have hstarved := result_settle.1 hresult
  have hopen := (State.phase_of_starved hstarved).2
  rw [settle_starved hstarved] at hstate hunread
  rw [decompress_eq_settle (by rw [hstate]; exact hopen), hstate]
  have hbits : (BitReader.bind d'.bits chunk').bits =
      (d.state.advance (BitReader.bind d.bits chunk)).reader.bits :=
    hunread.trans (unread_suspend _ _)
  rw [State.advance_again hstarved hbits]
  exact ⟨rfl, rfl⟩

/-! ## Drains -/

theorem drain_of_block {data : Array UInt8} (h : (d.decompress chunk).result = .ok (.block data)) :
    d.drain chunk =
      d.decompress chunk :: (d.decompress chunk).next.drain (d.decompress chunk).rest := by
  rw [drain]
  split
  · rfl
  · rename_i hne
    exact absurd h (hne data)

theorem drain_of_not_block (h : ∀ data, (d.decompress chunk).result ≠ .ok (.block data)) :
    d.drain chunk = [d.decompress chunk] := by
  rw [drain]
  split
  · exact absurd ‹_› (h _)
  · rfl

theorem drain_ne_nil (d : Decompressor) (chunk : List UInt8) : d.drain chunk ≠ [] := by
  rw [drain]
  split <;> exact List.cons_ne_nil _ _

theorem trace_drain (d' : Decompressor) : d'.trace (d.drain chunk) = d.trace (d.drain chunk) := by
  obtain ⟨call, calls, h⟩ := List.exists_cons_of_ne_nil (drain_ne_nil d chunk)
  rw [h]
  rfl

theorem trace_cons_congr {a b : Call} {front back : List Call} (hresult : b.result = a.result)
    (h : b.next.trace back = a.next.trace front) :
    d'.trace (b :: back) = d.trace (a :: front) := by
  have hsuspended : b.isSuspended = a.isSuspended := by unfold Call.isSuspended; rw [hresult]
  obtain ⟨hreported, hstate⟩ := Prod.mk.inj h
  refine Prod.ext ?_ hstate
  show reported (b :: back) = reported (a :: front)
  unfold reported at hreported ⊢
  rw [List.filter_cons, List.filter_cons, hsuspended]
  split
  · rw [List.map_cons, List.map_cons, hresult, hreported]
  · exact hreported

theorem trace_cons_suspended {call : Call} (h : call.result = .ok .suspended) (calls : List Call) :
    d.trace (call :: calls) = call.next.trace calls := by
  refine Prod.ext ?_ rfl
  show reported (call :: calls) = reported calls
  unfold reported
  rw [List.filter_cons_of_neg (by simp [Call.isSuspended_iff.2 h])]

theorem trace_drain_of_twin (h : (d.decompress chunk).next.state.Sound)
    (htwin : Call.Twin [] (d.decompress chunk) (d'.decompress chunk')) :
    d'.trace (d'.drain chunk') = d.trace (d.drain chunk) := by
  induction hweight : d.weight chunk using Nat.strongRecOn generalizing d d' chunk chunk' with
  | ind n ih =>
    by_cases hblock : ∃ data, (d.decompress chunk).result = .ok (.block data)
    · obtain ⟨data, hdata⟩ := hblock
      have hlt := weight_decompress_lt hdata
      rw [drain_of_block hdata, drain_of_block (htwin.result.trans hdata)]
      refine trace_cons_congr htwin.result (ih _ (hweight ▸ hlt) (sound_decompress h _) ?_ rfl)
      refine twin_decompress_congr h htwin.state ?_
      have hunread := htwin.unread (by simp [hdata])
      rwa [List.append_nil] at hunread
    · rw [drain_of_not_block fun data hdata => hblock ⟨data, hdata⟩,
        drain_of_not_block fun data hdata => hblock ⟨data, htwin.result.symm.trans hdata⟩]
      exact trace_cons_congr htwin.result (Prod.ext rfl htwin.state)

/-- A drain with `extra` bits more: either they are left over, or the drain that is suspended
without them is continued by a later one that has them. -/
theorem trace_drain_append (h : d.state.Sound) (hstate : d'.state = d.state)
    (hunread : d'.unread chunk' = d.unread chunk ++ extra) :
    ∃ last, (d.drain chunk).getLast? = some last ∧
      (last.result ≠ .ok .suspended ∧ d'.trace (d'.drain chunk') = d.trace (d.drain chunk) ∨
        last.result = .ok .suspended ∧
          ∀ (e : Decompressor) (later : List UInt8), e.state = last.next.state →
            e.unread later = last.unread ++ extra →
              d'.trace (d'.drain chunk') = d.trace (d.drain chunk ++ e.drain later)) := by
  induction hweight : d.weight chunk using Nat.strongRecOn generalizing d d' chunk chunk' with
  | ind n ih =>
    have hnext := sound_decompress h chunk
    rcases twin_decompress_append h hstate hunread with ⟨hne, htwin⟩ | ⟨hsuspended, hresume⟩
    · by_cases hblock : ∃ data, (d.decompress chunk).result = .ok (.block data)
      · obtain ⟨data, hdata⟩ := hblock
        have hlt := weight_decompress_lt hdata
        have hleft := htwin.unread (by simp [hdata])
        obtain ⟨last, hlast, hcase⟩ := ih _ (hweight ▸ hlt) hnext htwin.state hleft rfl
        rw [drain_of_block hdata, drain_of_block (htwin.result.trans hdata)]
        refine ⟨last, by rw [List.getLast?_cons, hlast]; rfl, ?_⟩
        rcases hcase with ⟨hend, htrace⟩ | ⟨hend, htrace⟩
        · exact .inl ⟨hend, trace_cons_congr htwin.result htrace⟩
        · exact .inr ⟨hend, fun e later he hlater =>
            trace_cons_congr htwin.result (htrace e later he hlater)⟩
      · rw [drain_of_not_block fun data hdata => hblock ⟨data, hdata⟩,
          drain_of_not_block fun data hdata => hblock ⟨data, htwin.result.symm.trans hdata⟩]
        exact ⟨_, rfl, .inl ⟨hne, trace_cons_congr htwin.result (Prod.ext rfl htwin.state)⟩⟩
    · rw [drain_of_not_block fun data hdata => by rw [hsuspended] at hdata; cases hdata]
      refine ⟨_, rfl, .inr ⟨hsuspended, fun e later he hlater => ?_⟩⟩
      rw [List.singleton_append, trace_cons_suspended hsuspended]
      have hsound : e.state.Sound := he ▸ hnext
      rw [trace_drain (d.decompress chunk).next]
      exact trace_drain_of_twin (sound_decompress hsound later) (hresume e later he hlater)

/-! ## Feeding -/

/-- Without input the decompressor does nothing but ask for some. -/
structure Waiting (d : Decompressor) : Prop where
  sound : d.state.Sound
  result : (d.decompress []).result = .ok .suspended
  state : (d.decompress []).next.state = d.state

theorem waiting_start : start.Waiting := by
  constructor
  · exact State.sound_start
  all_goals
    simp only [start, decompress, State.start, State.advance]
    rfl

theorem trace_drain_nil (h : d.Waiting) : d.trace (d.drain []) = ([], d.state) := by
  have hne : ∀ data, (d.decompress []).result ≠ .ok (.block data) := by
    intro data hdata
    rw [h.result] at hdata
    cases hdata
  rw [drain_of_not_block hne, trace_cons_suspended h.result]
  exact Prod.ext rfl h.state

/-- A drain that is suspended has used its chunk and leaves a decompressor that waits. -/
theorem waiting_of_drain {last : Call} (h : d.state.Sound)
    (hlast : (d.drain chunk).getLast? = some last) (hresult : last.result = .ok .suspended) :
    last.rest = [] ∧ last.next.Waiting := by
  fun_induction drain d chunk with
  | case1 d chunk call data hdata ih =>
    rw [List.getLast?_cons_of_ne_nil (drain_ne_nil _ _)] at hlast
    exact ih (sound_decompress h chunk) hlast
  | case2 d chunk call hne =>
    cases hlast
    have hrest : call.rest = [] := rest_of_suspended hresult
    have hunread : call.next.unread [] = call.unread := by rw [Call.unread, hrest]
    have hwaits := waiting_decompress hresult (show call.next.state = _ from rfl) hunread
    exact ⟨hrest, sound_decompress h chunk, hwaits.1, hwaits.2⟩

theorem after_of_getLast? {calls : List Call} {last : Call} (h : calls.getLast? = some last) :
    d.after calls = last.next := by
  obtain ⟨front, rfl⟩ := List.getLast?_eq_some_iff.1 h
  rw [after_append]
  rfl

theorem trace_append_congr {front back back' : List Call}
    (h : (d.after front).trace back = (d.after front).trace back') :
    d.trace (front ++ back) = d.trace (front ++ back') := by
  obtain ⟨hreported, hstate⟩ := Prod.mk.inj h
  refine Prod.ext ?_ ?_
  · show reported (front ++ back) = reported (front ++ back')
    rw [reported_append, reported_append, hreported]
  · show (d.after (front ++ back)).state = (d.after (front ++ back')).state
    rw [after_append, after_append, hstate]

theorem feed_of_suspended {last : Call} {chunks : List (List UInt8)}
    (hlast : (d.drain chunk).getLast? = some last) (hresult : last.result = .ok .suspended) :
    d.feed (chunk :: chunks) = d.drain chunk :: last.next.feed chunks := by
  obtain ⟨result, rest, reserved, next⟩ := last
  cases hresult
  simp only [feed, hlast]

theorem feed_of_not_suspended {last : Call} {chunks : List (List UInt8)}
    (hlast : (d.drain chunk).getLast? = some last) (hresult : last.result ≠ .ok .suspended) :
    d.feed (chunk :: chunks) = [d.drain chunk] := by
  simp only [feed, hlast]
  split
  · rename_i heq
    cases heq
    exact absurd rfl hresult
  · rfl

/-- Feeding chunks to a decompressor that waits does what draining all of their data does. -/
theorem trace_feed (h : d.Waiting) (chunks : List (List UInt8)) :
    d.trace (d.feed chunks).flatten = d.trace (d.drain chunks.flatten) := by
  induction chunks generalizing d with
  | nil => exact (trace_drain_nil h).symm
  | cons chunk chunks ih =>
    have hunread : d.unread (chunk ++ chunks.flatten) =
        d.unread chunk ++ Bits.ofBytes chunks.flatten := by
      simp [unread]
    obtain ⟨last, hlast, hcase⟩ := trace_drain_append h.sound rfl hunread
    rw [List.flatten_cons]
    rcases hcase with ⟨hne, htrace⟩ | ⟨hsuspended, hresume⟩
    · rw [feed_of_not_suspended hlast hne, htrace, List.flatten_singleton]
    · obtain ⟨hrest, hwaits⟩ := waiting_of_drain h.sound hlast hsuspended
      have hleft : last.next.unread chunks.flatten = last.unread ++ Bits.ofBytes chunks.flatten := by
        simp [Call.unread, unread, hrest]
      rw [feed_of_suspended hlast hsuspended, List.flatten_cons, hresume _ _ rfl hleft]
      refine trace_append_congr ?_
      rw [after_of_getLast? hlast]
      exact ih hwaits

/-- If the last call of a feeding is suspended, it leaves a decompressor that waits. -/
theorem waiting_of_feed {last : Call} {chunks : List (List UInt8)} (h : d.Waiting)
    (hlast : (d.feed chunks).flatten.getLast? = some last) (hresult : last.result = .ok .suspended) :
    last.next.Waiting := by
  induction chunks generalizing d with
  | nil => cases hlast
  | cons chunk chunks ih =>
    have hcall := List.getLast?_eq_some_getLast (drain_ne_nil d chunk)
    generalize (d.drain chunk).getLast _ = call at hcall
    by_cases hsuspended : call.result = .ok .suspended
    · have hwaits := (waiting_of_drain h.sound hcall hsuspended).2
      rw [feed_of_suspended hcall hsuspended, List.flatten_cons, List.getLast?_append,
        Option.or_eq_some_iff] at hlast
      rcases hlast with hlast | ⟨-, hlast⟩
      · exact ih hwaits hlast
      · rw [hcall] at hlast
        cases hlast
        exact hwaits
    · rw [feed_of_not_suspended hcall hsuspended, List.flatten_singleton, hcall] at hlast
      cases hlast
      exact absurd hresult hsuspended

end Decompressor

/-- However a stream is cut into chunks, the calls on it report the same results, apart from their
requests for input, and they leave the same mark of the end, checksum and block size. -/
theorem outcome_eq_of_flatten (chunks : List (List UInt8)) :
    Decompressor.start.outcome chunks = Decompressor.start.outcome [chunks.flatten] := by
  have htrace : Decompressor.start.trace (Decompressor.start.feed chunks).flatten =
      Decompressor.start.trace (Decompressor.start.feed [chunks.flatten]).flatten := by
    rw [Decompressor.trace_feed Decompressor.waiting_start,
      Decompressor.trace_feed Decompressor.waiting_start, List.flatten_singleton]
  obtain ⟨hreported, hstate⟩ := Prod.mk.inj htrace
  simp only [Decompressor.outcome, Decompressor.isFinished, hreported, hstate]

end Bunzip.Stream
