import Bunzip.Proofs.Stream.Safety

/-!
# Finality

What a caller does with a decompressor is a list of `Action`s. An action that fails hands its input
back and leaves the checksum of the stream as it was. After the end of the stream, or an error in
its data, nothing but the end is reported, and after `close` nothing but errors of usage
(`Decompressor.errors_and_ends_final`).
-/

namespace Bunzip.Stream

/-- What a caller does with a decompressor. -/
inductive Action where
  | decompress (chunk : List UInt8)
  | close
deriving Repr, DecidableEq, Inhabited

namespace Action

def input : Action → List UInt8
  | .decompress chunk => chunk
  | .close => []

def refusal : Action → UsageError
  | .decompress _ => .closed
  | .close => .alreadyClosed

end Action

/-- What an action gives. -/
structure Answer where
  /-- There is no event if the action was `close`. -/
  result : Except Fault (Option Event)
  /-- The part of the input that was not used. -/
  rest : List UInt8
  /-- The number of bytes that room was asked for, if it was. -/
  reserved : Option Nat
  next : Decompressor

namespace Answer

/-- With this answer the stream ends, by its end or by an error in its data. -/
def Ends (answer : Answer) : Prop :=
  answer.result = .ok (some .endOfStream) ∨ ∃ error, answer.result = .error (.stream error)

/-- Neither a block nor an error in the data. -/
structure Quiet (answer : Answer) : Prop where
  no_block : ∀ data, answer.result ≠ .ok (some (.block data))
  no_error : ∀ error, answer.result ≠ .error (.stream error)

end Answer

namespace Decompressor

/-- What an action gives, and what it leaves. -/
def perform (d : Decompressor) : Action → Answer
  | .decompress chunk =>
    let call := d.decompress chunk
    ⟨call.result.map some, call.rest, call.reserved, call.next⟩
  | .close =>
    match d.close with
    | .error fault => ⟨.error fault, [], none, d⟩
    | .ok closed => ⟨.ok none, [], none, closed⟩

def answers (d : Decompressor) : List Action → List Answer
  | [] => []
  | action :: actions => d.perform action :: (d.perform action).next.answers actions

variable {d : Decompressor} {chunk : List UInt8} {fault : Fault} {action : Action}

theorem result_perform_decompress :
    (d.perform (.decompress chunk)).result = .error fault ↔
      (d.decompress chunk).result = .error fault := by
  simp only [perform]
  cases (d.decompress chunk).result <;> simp [Except.map]

/-! ## Closed decompressors -/

theorem close_eq (h : d.state.phase ≠ .closed) :
    d.close = .ok ⟨⟨.closed, d.state.blockSize, d.state.streamCrc⟩, BitState.empty⟩ := by
  unfold close
  split
  · exact absurd ‹_› h
  · rfl

theorem close_of_closed (h : d.state.phase = .closed) :
    d.close = .error (.usage .alreadyClosed) := by
  rw [close, h]

theorem perform_of_closed (h : d.state.phase = .closed) (action : Action) :
    d.perform action = ⟨.error (.usage action.refusal), action.input, none, d⟩ := by
  cases action with
  | decompress chunk =>
    rw [perform, decompress_closed h]
    rfl
  | close =>
    rw [perform, close_of_closed h]
    rfl

theorem answers_of_closed (h : d.state.phase = .closed) (actions : List Action) :
    d.answers actions = actions.map fun action =>
      ⟨.error (.usage action.refusal), action.input, none, d⟩ := by
  induction actions with
  | nil => rfl
  | cons action actions ih => rw [answers, perform_of_closed h, ih, List.map_cons]

/-! ## Ended streams -/

theorem answers_of_ended (h : d.state.phase = .ended) (chunks : List (List UInt8)) :
    d.answers (chunks.map .decompress) =
      chunks.map fun chunk => ⟨.ok (some .endOfStream), chunk, none, d⟩ := by
  induction chunks with
  | nil => rfl
  | cons chunk chunks ih =>
    rw [List.map_cons, answers, perform, decompress_of_ended h, ih, List.map_cons]
    rfl

/-- A stream that has ended is quiet, before `close` and after it. -/
theorem quiet_of_finished (h : d.state.phase = .ended ∨ d.state.phase = .closed)
    (actions : List Action) : ∀ answer ∈ d.answers actions, answer.Quiet := by
  induction actions generalizing d with
  | nil => exact fun answer hanswer => by cases hanswer
  | cons action actions ih =>
    have hfirst : (d.perform action).Quiet ∧ ((d.perform action).next.state.phase = .ended ∨
        (d.perform action).next.state.phase = .closed) := by
      rcases h with hended | hclosed
      · cases action with
        | decompress chunk =>
          rw [perform, decompress_of_ended hended]
          exact ⟨⟨nofun, nofun⟩, .inl hended⟩
        | close =>
          rw [perform, close_eq (by rw [hended]; nofun)]
          exact ⟨⟨nofun, nofun⟩, .inr rfl⟩
      · rw [perform_of_closed hclosed]
        exact ⟨⟨nofun, nofun⟩, .inr hclosed⟩
    intro answer hanswer
    rcases List.mem_cons.1 hanswer with rfl | hlater
    · exact hfirst.1
    · exact ih hfirst.2 answer hlater

/-! ## Errors -/

theorem rest_of_error (h : (d.decompress chunk).result = .error fault) :
    (d.decompress chunk).rest = chunk := by
  by_cases hclosed : d.state.phase = .closed
  · rw [decompress_closed hclosed]
  rw [decompress_eq_settle hclosed] at h ⊢
  generalize d.state.advance (BitReader.bind d.bits chunk) = stop at h ⊢
  obtain ⟨state, last, halt⟩ := stop
  cases halt with
  | starved => cases h
  | ended => cases h
  | failed => rfl
  | complete readout =>
    simp only [settle, deliver] at h ⊢
    split
    · rfl
    split
    · rfl
    · rename_i hdrain _ _ hcheck
      simp only [hdrain, hcheck] at h
      cases h

/-- An error in the data ends the stream, and leaves the checksum of its blocks as it was. -/
theorem Live.of_error (h : d.Live) (herror : (d.decompress chunk).result = .error fault) :
    (∃ error, fault = .stream error) ∧ (d.decompress chunk).next.state.phase = .ended ∧
      (d.decompress chunk).next.state.streamCrc = d.state.streamCrc := by
  obtain ⟨place, -, hfault⟩ := h.atFault_of_error herror
  refine ⟨hfault.exists_error, ?_⟩
  rcases h.reading with hended | ⟨blocks, taken, hreading⟩
  · rw [decompress_of_ended hended] at herror
    cases herror
  · obtain ⟨used, -, htold⟩ := hreading.decompress chunk
    rw [herror] at htold
    exact ⟨htold.1, htold.2.trans hreading.front.2.1.symm⟩

/-- An answer with which the stream ends leaves it at its end. -/
theorem Reachable.ended_of_ends (h : d.Reachable) (hends : (d.perform action).Ends) :
    (d.perform action).next.state.phase = .ended := by
  rcases h.live with hclosed | hlive
  · rw [perform_of_closed hclosed] at hends
    rcases hends with hend | ⟨error, herror⟩
    · cases hend
    · cases herror
  cases action with
  | close =>
    rw [perform, close_eq hlive.phase_ne_closed] at hends
    rcases hends with hend | ⟨error, herror⟩
    · cases hend
    · cases herror
  | decompress chunk =>
    rcases hends with hend | ⟨error, herror⟩
    · have hcall := hlive.decompress chunk
      simp only [perform] at hend ⊢
      generalize d.decompress chunk = call at hcall hend ⊢
      obtain ⟨result, rest, reserved, next⟩ := call
      cases result <;> cases hend
      exact hcall
    · exact (hlive.of_error (result_perform_decompress.1 herror)).2.1

theorem Reachable.perform (h : d.Reachable) (action : Action) :
    (d.perform action).next.Reachable := by
  cases action with
  | decompress chunk => exact h.decompress chunk
  | close =>
    rw [Decompressor.perform]
    cases hclose : d.close with
    | error => exact h
    | ok closed => exact h.close hclose

/-- Behind an end there are no blocks and no errors in the data. -/
theorem Reachable.pairwise_answers (h : d.Reachable) (actions : List Action) :
    (d.answers actions).Pairwise fun before after => before.Ends → after.Quiet := by
  induction actions generalizing d with
  | nil => exact .nil
  | cons action actions ih =>
    exact .cons (fun after hafter hends =>
      quiet_of_finished (.inl (h.ended_of_ends hends)) actions after hafter)
      (ih (h.perform action))

/-- An action that fails hands its input back and leaves the checksum of the stream. -/
theorem Reachable.perform_of_error (h : d.Reachable)
    (herror : (d.perform action).result = .error fault) :
    (d.perform action).rest = action.input ∧
      (d.perform action).next.state.streamCrc = d.state.streamCrc ∧
      ((∃ error, fault = .stream error) ∧ (d.perform action).next.state.phase = .ended ∨
        fault = .usage action.refusal ∧ (d.perform action).next = d) := by
  rcases h.live with hclosed | hlive
  · rw [perform_of_closed hclosed] at herror ⊢
    cases herror
    exact ⟨rfl, rfl, .inr ⟨rfl, rfl⟩⟩
  cases action with
  | close =>
    rw [Decompressor.perform, close_eq hlive.phase_ne_closed] at herror
    cases herror
  | decompress chunk =>
    have hfails := result_perform_decompress.1 herror
    obtain ⟨hdata, hended, hcrc⟩ := hlive.of_error hfails
    exact ⟨rest_of_error hfails, hcrc, .inl ⟨hdata, hended⟩⟩

/-- Whatever was done before: an action that fails hands its input back and leaves the checksum of
the stream, and an error in the data leaves the stream at its end. After the end of the stream, or
an error in the data, every chunk is handed back with the end as the answer, no room is asked for,
and the decompressor stays as it is; so behind them there are no blocks and no further errors in the
data. The first `close` succeeds, wherever the stream stands, and everything after it is refused. -/
theorem errors_and_ends_final (h : d.Reachable) :
    (∀ action fault, (d.perform action).result = .error fault →
      (d.perform action).rest = action.input ∧
        (d.perform action).next.state.streamCrc = d.state.streamCrc ∧
        ((∃ error, fault = .stream error) ∧ (d.perform action).next.state.phase = .ended ∨
          fault = .usage action.refusal ∧ (d.perform action).next = d)) ∧
    (∀ action, (d.perform action).Ends → ∀ chunks : List (List UInt8),
      (d.perform action).next.answers (chunks.map .decompress) =
        chunks.map fun chunk => ⟨.ok (some .endOfStream), chunk, none, (d.perform action).next⟩) ∧
    (∀ actions, (d.answers actions).Pairwise fun before after => before.Ends → after.Quiet) ∧
    (d.isClosed = false → ∃ closed, d.close = .ok closed ∧ ∀ actions,
      closed.answers actions = actions.map fun action =>
        ⟨.error (.usage action.refusal), action.input, none, closed⟩) := by
  refine ⟨fun action fault => h.perform_of_error,
    fun action hends => answers_of_ended (h.ended_of_ends hends), h.pairwise_answers,
    fun hopen => ?_⟩
  have hphase : d.state.phase ≠ .closed := by
    intro hclosed
    simp [isClosed, hclosed] at hopen
  exact ⟨_, close_eq hphase, answers_of_closed rfl⟩

/-- A header that is refused, and `close` in the middle of a payload. -/
theorem errors_and_ends_final_sizeless :
    ((start.perform (.decompress sizeless)).rest = sizeless ∧
      (start.perform (.decompress sizeless)).next.state.streamCrc = 0 ∧
      (start.perform (.decompress sizeless)).next.answers [.decompress continuation] =
        [⟨.ok (some .endOfStream), continuation, none,
          (start.perform (.decompress sizeless)).next⟩]) ∧
    (start.answers [.decompress sizeless, .close]).Pairwise
      (fun before after => before.Ends → after.Quiet) ∧
    ∃ closed, midway.close = .ok closed ∧ closed.answers [.decompress continuation, .close] =
      [⟨.error (.usage .closed), continuation, none, closed⟩,
        ⟨.error (.usage .alreadyClosed), [], none, closed⟩] := by
  have hfails : (start.perform (.decompress sizeless)).result = .error (.stream _) :=
    result_perform_decompress.2 decompress_sizeless
  obtain ⟨herrors, hends, hpairs, -⟩ := errors_and_ends_final .start
  obtain ⟨-, -, -, hcloses⟩ := errors_and_ends_final reachable_midway
  obtain ⟨hrest, hcrc, -⟩ := herrors _ _ hfails
  obtain ⟨closed, hclose, hrefused⟩ := hcloses (by decide +kernel)
  exact ⟨⟨hrest, hcrc, hends _ (.inr ⟨_, hfails⟩) [continuation]⟩, hpairs _, closed, hclose,
    hrefused _⟩

end Decompressor

end Bunzip.Stream
