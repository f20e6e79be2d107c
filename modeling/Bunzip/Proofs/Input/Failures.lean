import Bunzip.Input.Reader
import Bunzip.Proofs.Stream.Chunking
import Mathlib.Control.Monad.Basic

/-!
# Failures of a source

A request that fails leaves zeros in the rest of the chunk buffer, and the next call takes them for
input. Nothing is left exactly if the last delivery had filled the buffer, and if every failed read
of a run leaves nothing, its other reads answer as they do without the failures
(`answers_of_failures`). Otherwise the zeros may be decoded (`failure_corrupts`).

The run without failures is followed by a `Twin` of the feed. A failed read has called the
decompressor already, which the run without it has not; so the two meet again in their next block.
-/

namespace Bunzip.Input

open Bunzip.Stream

def Delivery.isFailure : Delivery → Bool
  | .failure _ => true
  | .atMost _ => false

namespace Source

/-- The source without its failures. -/
def reliable (source : Source) : Source :=
  { source with plan := source.plan.filter fun delivery => !delivery.isFailure }

/-- The second source is where the first is, and its plan has the same deliveries and no
failures. -/
structure Twin (source source' : Source) : Prop where
  unread : source'.unread = source.unread
  position : source'.position = source.position
  plan : source'.plan = source.reliable.plan

variable {source source' after : Source} {room : Nat} {bytes : List UInt8}

theorem twin_reliable (source : Source) : Twin source source.reliable := ⟨rfl, rfl, rfl⟩

/-- A failure that is passed over does not show in the twin. -/
theorem Twin.of_failure {failure : SourceFailure} {plan : List Delivery} (requests : Nat)
    (h : Twin source source') (hplan : source.plan = .failure failure :: plan) :
    Twin { source with plan, requests } source' := by
  refine ⟨h.unread, h.position, ?_⟩
  rw [h.plan, reliable, hplan, reliable, List.filter_cons_of_neg (by simp [Delivery.isFailure])]

theorem Twin.deliver (h : Twin source source') (count : Nat) :
    (source'.deliver count).1 = (source.deliver count).1 ∧
      Twin (source.deliver count).2 (source'.deliver count).2 := by
  refine ⟨congrArg (·.take count) h.unread, congrArg (·.drop count) h.unread, ?_, h.plan⟩
  show source'.position + (source'.unread.take count).length = _
  rw [h.position, h.unread]
  rfl

theorem receive_eq_request (h : ∀ failure plan, source.plan ≠ .failure failure :: plan) :
    source.receive room = source.request room := by
  rw [receive]
  split
  · exact absurd ‹_› (h _ _)
  · rfl

theorem Twin.receive_eq_request (h : Twin source source') :
    source'.receive room = source'.request room := by
  refine Source.receive_eq_request fun failure plan hplan => ?_
  have hmem : Delivery.failure failure ∈ source.reliable.plan := by
    rw [← h.plan, hplan]
    exact List.mem_cons_self
  simp [reliable, Delivery.isFailure] at hmem

theorem Twin.request (h : Twin source source') (hrequest : source.request room = (.ok bytes, after)) :
    ∃ after', source'.request room = (.ok bytes, after') ∧ Twin after after' := by
  have hplan := h.plan
  have htwin (plan : List Delivery) : Twin { source with plan, requests := source.requests + 1 }
      { source' with plan := plan.filter fun delivery => !delivery.isFailure,
                     requests := source'.requests + 1 } :=
    ⟨h.unread, h.position, rfl⟩
  unfold reliable at hplan
  unfold Source.request at hrequest ⊢
  cases hcase : source.plan with
  | nil =>
    obtain ⟨hbytes, hnext⟩ := (htwin []).deliver room
    simp only [hcase, List.filter_nil] at hplan hrequest hbytes hnext
    simp only [hplan]
    cases hrequest
    exact ⟨_, Prod.ext (congrArg Except.ok hbytes) rfl, hnext⟩
  | cons delivery plan =>
    cases delivery with
    | failure => simp [hcase] at hrequest
    | atMost count =>
      obtain ⟨hbytes, hnext⟩ := (htwin plan).deliver (min count room)
      rw [hcase, List.filter_cons_of_pos (by simp [Delivery.isFailure])] at hplan
      simp only [hcase] at hrequest
      simp only [hplan]
      cases hrequest
      exact ⟨_, Prod.ext (congrArg Except.ok hbytes) rfl, hnext⟩

theorem Twin.receive (h : Twin source source')
    (hreceive : source.receive room = (.ok bytes, after)) :
    ∃ after', source'.receive room = (.ok bytes, after') ∧ Twin after after' := by
  fun_induction Source.receive source room with
  | case1 source text plan hplan ih => exact ih (h.of_failure _ hplan) hreceive
  | case2 source hplan =>
    rw [h.receive_eq_request]
    exact h.request hreceive

theorem Twin.receive_failed {failure : SourceFailure} (h : Twin source source')
    (hreceive : source.receive room = (.error failure, after)) : Twin after source' := by
  fun_induction Source.receive source room with
  | case1 source text plan hplan ih => exact ih (h.of_failure _ hplan) hreceive
  | case2 source hplan =>
    unfold Source.request at hreceive
    simp only at hreceive
    split at hreceive
    · cases hreceive
    · cases hreceive
    · rename_i hcase
      cases hreceive
      exact h.of_failure _ hcase

end Source

namespace Feed

/-- The second feed is where the first is, over a twin of its source. -/
structure Twin (f f' : Feed) : Prop where
  source : f.source.Twin f'.source
  decompressor : f'.decompressor = f.decompressor
  chunkSize : f'.chunkSize = f.chunkSize
  unread : f'.unread = f.unread
  exhausted : f'.exhausted = f.exhausted

/-- The feed after a call on what is in its buffer. -/
def took (f : Feed) (call : Call) : Feed :=
  { f with decompressor := call.next, buffer := .delivered call.rest }

variable {f f' after : Feed}

theorem twin_start (source : Source) (chunkSize : Nat) :
    Twin (start source chunkSize) (start source.reliable chunkSize) :=
  ⟨source.twin_reliable, rfl, rfl, rfl, rfl⟩

theorem Twin.took (h : Twin f f') (call : Call) : Twin (f.took call) (f'.took call) :=
  ⟨h.source, rfl, h.chunkSize, rfl, h.exhausted⟩

theorem Twin.isEmpty (h : Twin f f') : f'.buffer.isEmpty = f.buffer.isEmpty := by
  rw [Bool.eq_iff_iff, Buffer.isEmpty_iff, Buffer.isEmpty_iff]
  exact iff_of_eq (congrArg (· = []) h.unread)

/-! ## Requests -/

/-- A request that fails leaves a zero for each byte by which the last delivery missed the size of
the buffer. -/
theorem unread_fill_failed {failure : SourceFailure}
    (h : f.fill = (.error (.source failure), after)) :
    after.unread = List.replicate (f.chunkSize - f.filled) 0 := by
  unfold fill at h
  split at h
  · cases h
  split at h
  · cases h
    rfl
  · cases h

theorem Twin.fill {result : Except ReadFailure Unit} (h : Twin f f') (hfill : f.fill = (result, after))
    (hresult : ∀ failure, result ≠ .error (.source failure)) :
    ∃ after', f'.fill = (result, after') ∧ Twin after after' := by
  unfold Feed.fill at hfill ⊢
  cases hcapacity : checkCapacity f.chunkSize with
  | error fault =>
    have hcapacity' := h.chunkSize ▸ hcapacity
    simp only [hcapacity, hcapacity'] at hfill ⊢
    cases hfill
    exact ⟨f', rfl, h⟩
  | ok =>
    have hcapacity' := h.chunkSize ▸ hcapacity
    cases hreceive : f.source.receive f.chunkSize with
    | mk delivered source =>
      cases delivered with
      | error failure =>
        simp only [hcapacity, hreceive] at hfill
        cases hfill
        exact absurd rfl (hresult failure)
      | ok bytes =>
        obtain ⟨source', hreceive', htwin⟩ := h.source.receive hreceive
        rw [← h.chunkSize] at hreceive'
        simp only [hcapacity, hcapacity', hreceive, hreceive'] at hfill ⊢
        cases hfill
        exact ⟨_, rfl, htwin, h.decompressor, h.chunkSize, rfl, rfl⟩

theorem Twin.fill_failed {failure : SourceFailure} (h : Twin f f')
    (hfill : f.fill = (.error (.source failure), after)) (hempty : f.unread = [])
    (hleft : after.unread = []) : Twin after f' := by
  unfold Feed.fill at hfill
  split at hfill
  · cases hfill
  split at hfill
  · rename_i hreceive
    cases hfill
    exact ⟨h.source.receive_failed hreceive, h.decompressor, h.chunkSize,
      by rw [h.unread, hempty, hleft], h.exhausted⟩
  · cases hfill

/-! ## Blocks -/

theorem work_eq (f : Feed) : f.work =
    let call := f.decompressor.decompress f.unread
    match call.result with
    | .error fault => (.error (.fault fault), f.took call)
    | .ok (.block data) => (.ok (some data), f.took call)
    | .ok .endOfStream => (.ok none, f.took call)
    | .ok .suspended =>
      if f.exhausted = true then (.error .truncated, f.took call)
      else
        match (f.took call).fill with
        | (.error failure, f) => (.error failure, f)
        | (.ok (), f) => f.work := by
  rw [work]
  obtain ⟨source, decompressor, chunkSize, positive, buffer, filled, exhausted⟩ := f
  simp only [unread, took]
  generalize decompressor.decompress buffer.toList = call
  obtain ⟨result, rest, reserved, next⟩ := call
  cases result with
  | error fault => rfl
  | ok event =>
    cases event with
    | block data => rfl
    | endOfStream => rfl
    | suspended =>
      simp only
      split
      · rfl
      · split <;> simp_all

theorem work_of_suspended (hresult : (f.decompressor.decompress f.unread).result = .ok .suspended)
    (hopen : f.exhausted = false) :
    f.work = match (f.took (f.decompressor.decompress f.unread)).fill with
      | (.error failure, f) => (.error failure, f)
      | (.ok (), f) => f.work := by
  rw [work_eq]
  simp only [hresult, hopen]
  rfl

/-- Working on is calls, with a request after each that is suspended before the source is known to
be exhausted; less is to come with each request. -/
theorem work_induction {motive : Feed → Prop}
    (waits : ∀ f, (f.decompressor.decompress f.unread).result = .ok .suspended →
      f.exhausted = false →
      (∀ next, (f.took (f.decompressor.decompress f.unread)).fill = (.ok (), next) →
        motive next) → motive f)
    (stops : ∀ f, ¬ ((f.decompressor.decompress f.unread).result = .ok .suspended ∧
      f.exhausted = false) → motive f)
    (f : Feed) : motive f := by
  induction htoCome : f.toCome using Nat.strongRecOn generalizing f with
  | ind n ih =>
    by_cases hwaits : (f.decompressor.decompress f.unread).result = .ok .suspended ∧
        f.exhausted = false
    · exact waits f hwaits.1 hwaits.2 fun next hfill =>
        ih _ (htoCome ▸ (toCome_fill hfill hwaits.2).1) next rfl
    · exact stops f hwaits

/-- The outcome of a twin: the same one, or after a failure of the source one that the feed gives
with its next block, if the failure left nothing. -/
def Meets (out out' : Except ReadFailure (Option (Array UInt8)) × Feed) : Prop :=
  match out.1 with
  | .error (.source _) => out.2.unread = [] → ∃ mid, Twin out.2 mid ∧ out' = mid.nextBlock
  | _ => out'.1 = out.1 ∧ Twin out.2 out'.2

theorem Meets.same {out out' : Except ReadFailure (Option (Array UInt8)) × Feed}
    (h : Meets out out') (hresult : ∀ failure, out.1 ≠ .error (.source failure)) :
    out'.1 = out.1 ∧ Twin out.2 out'.2 := by
  unfold Meets at h
  split at h
  · exact absurd ‹_› (hresult _)
  · exact h

theorem nextBlock_of_empty (hopen : f.decompressor.isFinished = false) (hempty : f.unread = [])
    (hexhausted : f.exhausted = false) :
    f.nextBlock = match f.fill with
      | (.error failure, f) => (.error failure, f)
      | (.ok (), f) => f.work := by
  have hbuffer : f.buffer.isEmpty = true := Buffer.isEmpty_iff.2 hempty
  simp only [nextBlock, hopen, hbuffer, hexhausted]
  rfl

theorem nextBlock_of_busy (hopen : f.decompressor.isFinished = false)
    (hbusy : ¬ (f.unread = [] ∧ f.exhausted = false)) : f.nextBlock = f.work := by
  have hneeds : (f.buffer.isEmpty && !f.exhausted) = false := by
    rw [← Bool.not_eq_true, Bool.and_eq_true, Bool.not_eq_true', Buffer.isEmpty_iff]
    exact hbusy
  simp only [nextBlock, hopen, hneeds]
  rfl

/-- A request and the work after it, when the twins are ready for both. -/
theorem Twin.meets_of_fill (h : Twin f f') (hopen : f.decompressor.isFinished = false)
    (hempty : f.unread = []) (hexhausted : f.exhausted = false)
    (hwork : ∀ mid mid', f.fill = (.ok (), mid) → Twin mid mid' → Meets mid.work mid'.work) :
    Meets f.nextBlock f'.nextBlock := by
  have hnext' := nextBlock_of_empty (h.decompressor ▸ hopen) (h.unread.trans hempty)
    (h.exhausted.trans hexhausted)
  rw [nextBlock_of_empty hopen hempty hexhausted]
  cases hfill : f.fill with
  | mk result mid =>
    cases result with
    | ok =>
      obtain ⟨mid', hfill', htwin⟩ := h.fill hfill (by simp)
      rw [hnext', hfill']
      exact hwork mid mid' hfill htwin
    | error failure =>
      cases failure with
      | source failure =>
        intro hleft
        exact ⟨f', h.fill_failed hfill hempty hleft, rfl⟩
      | _ =>
        obtain ⟨mid', hfill', htwin⟩ := h.fill hfill (by simp)
        rw [hnext', hfill']
        exact ⟨rfl, htwin⟩

/-- The twin of a feed works as the feed does, or is behind it by a failed request. -/
theorem Twin.work (h : Twin f f') : Meets f.work f'.work := by
  induction f using work_induction generalizing f' with
  | waits f hresult hexhausted ih =>
    have hresult' : (f'.decompressor.decompress f'.unread).result = .ok .suspended := by
      rw [h.decompressor, h.unread, hresult]
    have hrest := Decompressor.rest_of_suspended hresult
    have hopen := Decompressor.isFinished_of_suspended hresult
    have htwin : Twin (f.took (f.decompressor.decompress f.unread))
        (f'.took (f'.decompressor.decompress f'.unread)) := by
      rw [h.decompressor, h.unread]
      exact h.took _
    have hempty : (f.took (f.decompressor.decompress f.unread)).unread = [] := hrest
    rw [work_of_suspended hresult hexhausted,
      work_of_suspended hresult' (h.exhausted.trans hexhausted),
      ← nextBlock_of_empty hopen hempty hexhausted,
      ← nextBlock_of_empty (htwin.decompressor ▸ hopen) (htwin.unread.trans hempty)
        (h.exhausted.trans hexhausted)]
    exact htwin.meets_of_fill hopen hempty hexhausted fun mid mid' hfill hmid => ih mid hfill hmid
  | stops f hwaits =>
    rw [work_eq, work_eq, h.decompressor, h.unread, h.exhausted]
    generalize f.decompressor.decompress f.unread = call at hwaits ⊢
    obtain ⟨result, rest, reserved, next⟩ := call
    cases result with
    | error fault => exact ⟨rfl, h.took _⟩
    | ok event =>
      cases event with
      | block data => exact ⟨rfl, h.took _⟩
      | endOfStream => exact ⟨rfl, h.took _⟩
      | suspended =>
        have hexhausted : f.exhausted = true := by simpa using hwaits
        simp only [hexhausted]
        exact ⟨rfl, h.took _⟩

theorem Twin.nextBlock (h : Twin f f') : Meets f.nextBlock f'.nextBlock := by
  by_cases hopen : f.decompressor.isFinished = true
  · have hopen' : f'.decompressor.isFinished = true := h.decompressor ▸ hopen
    rw [Feed.nextBlock, Feed.nextBlock, if_pos hopen, if_pos hopen']
    exact ⟨rfl, h⟩
  rw [Bool.not_eq_true] at hopen
  by_cases hneeds : f.unread = [] ∧ f.exhausted = false
  · exact h.meets_of_fill hopen hneeds.1 hneeds.2 fun mid mid' _ hmid => hmid.work
  · have hopen' : f'.decompressor.isFinished = false := h.decompressor ▸ hopen
    rw [nextBlock_of_busy hopen hneeds,
      nextBlock_of_busy hopen' (by rw [h.unread, h.exhausted]; exact hneeds)]
    exact h.work

/-! ## Failed requests -/

/-- The second feed is the first at one of the requests for its next block. -/
inductive Requests : Feed → Feed → Prop
  | now {f : Feed} (hopen : f.decompressor.isFinished = false) (hempty : f.unread = [])
    (hexhausted : f.exhausted = false) : Requests f f
  | call {f g : Feed} (hbusy : f.unread ≠ []) (hexhausted : f.exhausted = false)
    (hresult : (f.decompressor.decompress f.unread).result = .ok .suspended)
    (h : Requests (f.took (f.decompressor.decompress f.unread)) g) : Requests f g
  | delivery {f mid after g : Feed} (h : Requests f mid) (hfill : mid.fill = (.ok (), after))
    (hlater : Requests after g) : Requests f g

theorem fill_busy (h : f.fill = (.ok (), after)) : after.unread ≠ [] ∨ after.exhausted = true := by
  unfold fill at h
  split at h
  · cases h
  split at h
  · cases h
  · rename_i bytes source _
    cases h
    show bytes ≠ [] ∨ bytes.isEmpty = true
    cases bytes with
    | nil => exact .inr rfl
    | cons byte bytes => exact .inl (List.cons_ne_nil _ _)

theorem requests_of_work_failed {failure : SourceFailure}
    (hbusy : f.unread ≠ [] ∨ f.exhausted = true)
    (h : f.work = (.error (.source failure), after)) :
    ∃ g, Requests f g ∧ g.fill = (.error (.source failure), after) := by
  induction f using work_induction with
  | waits f hresult hexhausted ih =>
    have hnow : Requests (f.took (f.decompressor.decompress f.unread)) _ :=
      .now (Decompressor.isFinished_of_suspended hresult)
        (Decompressor.rest_of_suspended hresult) hexhausted
    have hcall {g : Feed} := Requests.call (g := g)
      (hbusy.resolve_right (by simp [hexhausted])) hexhausted hresult
    rw [work_of_suspended hresult hexhausted] at h
    cases hfill : (f.took (f.decompressor.decompress f.unread)).fill with
    | mk result mid =>
      rw [hfill] at h
      cases result with
      | error =>
        cases h
        exact ⟨_, hcall hnow, hfill⟩
      | ok =>
        obtain ⟨g, hg, hgfill⟩ := ih mid hfill (fill_busy hfill) h
        exact ⟨g, hcall (.delivery hnow hfill hg), hgfill⟩
  | stops f hwaits =>
    rw [work_eq] at h
    generalize f.decompressor.decompress f.unread = call at hwaits h
    obtain ⟨result, rest, reserved, next⟩ := call
    cases result with
    | error fault => simp at h
    | ok event =>
      cases event with
      | block data => simp at h
      | endOfStream => simp at h
      | suspended =>
        have hexhausted : f.exhausted = true := by simpa using hwaits
        simp [hexhausted] at h

/-- What the source fails is one of the requests. -/
theorem requests_of_nextBlock_failed {failure : SourceFailure}
    (h : f.nextBlock = (.error (.source failure), after)) :
    ∃ g, Requests f g ∧ g.fill = (.error (.source failure), after) := by
  by_cases hopen : f.decompressor.isFinished = true
  · simp [nextBlock, hopen] at h
  rw [Bool.not_eq_true] at hopen
  by_cases hneeds : f.unread = [] ∧ f.exhausted = false
  · have hnow : Requests f f := .now hopen hneeds.1 hneeds.2
    rw [nextBlock_of_empty hopen hneeds.1 hneeds.2] at h
    cases hfill : f.fill with
    | mk result mid =>
      rw [hfill] at h
      cases result with
      | error =>
        cases h
        exact ⟨f, hnow, hfill⟩
      | ok =>
        obtain ⟨g, hg, hgfill⟩ := requests_of_work_failed (fill_busy hfill) h
        exact ⟨g, .delivery hnow hfill hg, hgfill⟩
  · rw [nextBlock_of_busy hopen hneeds] at h
    refine requests_of_work_failed ?_ h
    rcases Decidable.not_and_iff_or_not.1 hneeds with hbusy | hexhausted
    · exact .inl hbusy
    · exact .inr (by simpa using hexhausted)

end Feed

/-! ## Reads -/

/-- A read of a caller who goes on after a failure of the source. -/
structure Reading where
  before : Reader
  size : Nat
  result : Except ReadFailure (Array UInt8)
  after : Reader

namespace Reading

def failed (reading : Reading) : Bool :=
  match reading.result with
  | .error (.source _) => true
  | _ => false

theorem failed_iff {reading : Reading} :
    reading.failed = true ↔ ∃ failure, reading.result = .error (.source failure) := by
  unfold failed
  split <;> simp_all

/-- What the caller learns: the bytes or the reason for none, whether the stream has ended, and the
place in the source. -/
def answer (reading : Reading) : Except ReadFailure (Array UInt8) × Bool × Nat :=
  (reading.result, reading.after.isFinished, reading.after.feed.source.position)

def LeavesNothing (reading : Reading) : Prop := reading.after.feed.unread = []

end Reading

def answered (readings : List Reading) : List Reading :=
  readings.filter fun reading => !reading.failed

theorem answered_cons_of_failed {reading : Reading} {readings : List Reading}
    (h : reading.failed = true) : answered (reading :: readings) = answered readings :=
  List.filter_cons_of_neg (by simp [h])

theorem answered_cons_of_not_failed {reading : Reading} {readings : List Reading}
    (h : ¬ reading.failed = true) :
    answered (reading :: readings) = reading :: answered readings :=
  List.filter_cons_of_pos (by simpa using h)

namespace Reader

/-- Reads of the given sizes, one after the other. -/
def reads (r : Reader) : List Nat → List Reading
  | [] => []
  | size :: sizes => ⟨r, size, (r.read size).1, (r.read size).2⟩ :: (r.read size).2.reads sizes

/-- The second reader is where the first is, over a twin of its feed. -/
structure Twin (r r' : Reader) : Prop where
  feed : r.feed.Twin r'.feed
  block : r'.block = r.block
  served : r'.served = r.served

/-- The second reader is where the first is, or it will be with the next block. -/
structure Behind (r r' : Reader) : Prop where
  block : r'.block = r.block
  served : r'.served = r.served
  feed : ∃ mid, r.feed.Twin mid ∧ r'.feed.nextBlock = mid.nextBlock ∧
    (r.served < r.block.size → r'.feed = mid)

variable {r r' : Reader} {size : Nat}

theorem Twin.behind (h : Twin r r') : Behind r r' :=
  ⟨h.block, h.served, r'.feed, h.feed, rfl, fun _ => rfl⟩

theorem Twin.serve (h : Twin r r') (size : Nat) :
    (r'.serve size).1 = (r.serve size).1 ∧ Twin (r.serve size).2 (r'.serve size).2 := by
  refine ⟨?_, h.feed, h.block, ?_⟩
  all_goals simp only [Reader.serve, h.block, h.served]

theorem read_of_served (hsize : 0 < size) (hserved : r.block.size ≤ r.served) :
    r.read size = match r.feed.nextBlock with
      | (.error failure, feed) => (.error failure, ⟨feed, r.block, r.served⟩)
      | (.ok none, feed) => (.ok #[], ⟨feed, r.block, r.served⟩)
      | (.ok (some data), feed) =>
        (.ok (serve ⟨feed, data, 0⟩ size).1, (serve ⟨feed, data, 0⟩ size).2) := by
  have hnone : ¬ size = 0 := by omega
  have hnot : ¬ r.served < r.block.size := by omega
  exact (if_neg hnone).trans (if_neg hnot)

theorem read_of_serving (hsize : 0 < size) (hserved : r.served < r.block.size) :
    r.read size = (.ok (r.serve size).1, (r.serve size).2) := by
  rw [read, if_neg (by omega), if_pos hserved]

/-- Either the source failed the read, and the second reader is still behind if nothing was left, or
the second reader does the same. -/
theorem Behind.read (h : Behind r r') (hsize : 0 < size) :
    (∃ failure, (r.read size).1 = .error (.source failure) ∧
        ((r.read size).2.feed.unread = [] → Behind (r.read size).2 r')) ∨
      (∀ failure, (r.read size).1 ≠ .error (.source failure)) ∧
        (r'.read size).1 = (r.read size).1 ∧ Twin (r.read size).2 (r'.read size).2 := by
  obtain ⟨mid, htwin, hnext, hmid⟩ := h.feed
  by_cases hserved : r.served < r.block.size
  · have hreader : Twin r r' := ⟨hmid hserved ▸ htwin, h.block, h.served⟩
    have hserve := hreader.serve size
    rw [read_of_serving hsize hserved,
      read_of_serving hsize (by rw [h.block, h.served]; exact hserved)]
    exact .inr ⟨by simp, congrArg Except.ok hserve.1, hserve.2⟩
  · have hmeets := htwin.nextBlock
    rw [read_of_served hsize (by omega),
      read_of_served hsize (by rw [h.block, h.served]; omega), hnext]
    generalize r.feed.nextBlock = out at hmeets ⊢
    obtain ⟨result, feed⟩ := out
    by_cases hsource : ∃ failure, result = .error (.source failure)
    · obtain ⟨failure, rfl⟩ := hsource
      refine .inl ⟨failure, rfl, fun hleft => ?_⟩
      obtain ⟨later, hlater, heq⟩ := hmeets hleft
      exact ⟨h.block, h.served, later, hlater, hnext.trans heq, fun hlt => absurd hlt hserved⟩
    · obtain ⟨hresult, hfeed⟩ := hmeets.same fun failure heq => hsource ⟨failure, heq⟩
      generalize mid.nextBlock = out' at hresult hfeed ⊢
      obtain ⟨result', feed'⟩ := out'
      obtain rfl : result' = result := hresult
      have hreader (block : Array UInt8) (served : Nat) :
          Twin ⟨feed, block, served⟩ ⟨feed', block, served⟩ := ⟨hfeed, rfl, rfl⟩
      rw [h.block, h.served]
      cases result' with
      | error failure =>
        exact .inr ⟨fun other heq => hsource ⟨other, by cases heq; rfl⟩, rfl, hreader _ _⟩
      | ok data =>
        cases data with
        | none => exact .inr ⟨by simp, rfl, hreader _ _⟩
        | some data =>
          have hserve := (hreader data 0).serve size
          exact .inr ⟨by simp, congrArg Except.ok hserve.1, hserve.2⟩

theorem requests_of_read_failed {failure : SourceFailure} (hsize : 0 < size)
    (h : (r.read size).1 = .error (.source failure)) :
    ∃ g, r.feed.Requests g ∧ g.fill = (.error (.source failure), (r.read size).2.feed) := by
  by_cases hserved : r.served < r.block.size
  · rw [read_of_serving hsize hserved] at h
    cases h
  · rw [read_of_served hsize (by omega)] at h ⊢
    cases hnext : r.feed.nextBlock with
    | mk result feed =>
      rw [hnext] at h
      cases result with
      | error =>
        cases h
        exact Feed.requests_of_nextBlock_failed hnext
      | ok data => cases data <;> cases h

theorem eq_read_of_mem_reads {reading : Reading} {sizes : List Nat} (h : reading ∈ r.reads sizes) :
    reading.size ∈ sizes ∧ reading.before.read reading.size = (reading.result, reading.after) := by
  induction sizes generalizing r with
  | nil => cases h
  | cons size sizes ih =>
    rcases List.mem_cons.1 h with rfl | hmem
    · exact ⟨List.mem_cons_self, rfl⟩
    · exact ⟨List.mem_cons_of_mem _ (ih hmem).1, (ih hmem).2⟩

/-- What the reads learn that the source did not fail. -/
theorem Behind.reads (h : Behind r r') (sizes : List Nat) (hsizes : ∀ size ∈ sizes, 0 < size)
    (hleft : ∀ reading ∈ r.reads sizes, reading.failed = true → reading.LeavesNothing) :
    (answered (r.reads sizes)).map Reading.answer =
      (r'.reads ((answered (r.reads sizes)).map Reading.size)).map Reading.answer := by
  induction sizes generalizing r r' with
  | nil => rfl
  | cons size sizes ih =>
    have hsizes' : ∀ size ∈ sizes, 0 < size := fun s hs => hsizes s (List.mem_cons_of_mem _ hs)
    simp only [Reader.reads] at hleft ⊢
    have hlater := fun reading hmem => hleft reading (List.mem_cons_of_mem _ hmem)
    rcases h.read (hsizes size List.mem_cons_self) with ⟨failure, hresult, hbehind⟩ |
      ⟨hresult, hsame, htwin⟩
    · have hfailed : Reading.failed ⟨r, size, (r.read size).1, (r.read size).2⟩ = true :=
        Reading.failed_iff.2 ⟨failure, hresult⟩
      rw [answered_cons_of_failed hfailed]
      exact ih (hbehind (hleft _ List.mem_cons_self hfailed)) hsizes' hlater
    · rw [answered_cons_of_not_failed fun hfailed => by
        obtain ⟨failure, heq⟩ := Reading.failed_iff.1 hfailed
        exact hresult failure heq]
      simp only [List.map_cons, Reader.reads]
      rw [ih htwin.behind hsizes' hlater]
      refine congrArg (· :: _) ?_
      simp only [Reading.answer, isFinished, hsame, htwin.feed.decompressor,
        htwin.feed.source.position]

end Reader

/-- Let a caller read on after each failure of the source. A failed read leaves nothing for the
decompressor exactly if the request that failed found the buffer filled. And if no failed read leaves
anything, the other reads learn what they learn over the source without its failures. -/
theorem answers_of_failures (source : Source) (chunkSize : Nat) (sizes : List Nat)
    (hsizes : ∀ size ∈ sizes, 0 < size) :
    (∀ reading ∈ (Reader.start source chunkSize).reads sizes, reading.failed = true →
        ∃ g failure, reading.before.feed.Requests g ∧
          g.fill = (.error (.source failure), reading.after.feed) ∧
          (reading.LeavesNothing ↔ g.chunkSize ≤ g.filled)) ∧
      ((∀ reading ∈ (Reader.start source chunkSize).reads sizes,
          reading.failed = true → reading.LeavesNothing) →
        (answered ((Reader.start source chunkSize).reads sizes)).map Reading.answer =
          ((Reader.start source.reliable chunkSize).reads
            ((answered ((Reader.start source chunkSize).reads sizes)).map Reading.size)).map
              Reading.answer) := by
  refine ⟨fun reading hmem hfailed => ?_, fun hleft => ?_⟩
  · obtain ⟨failure, hresult⟩ := Reading.failed_iff.1 hfailed
    obtain ⟨hsize, hread⟩ := Reader.eq_read_of_mem_reads hmem
    obtain ⟨g, hg, hfill⟩ := Reader.requests_of_read_failed (hsizes _ hsize)
      (show (reading.before.read reading.size).1 = .error (.source failure) by rw [hread, hresult])
    rw [hread] at hfill
    refine ⟨g, failure, hg, hfill, ?_⟩
    rw [Reading.LeavesNothing, Feed.unread_fill_failed hfill, List.replicate_eq_nil_iff]
    omega
  · have hstart : Reader.Twin (Reader.start source chunkSize)
        (Reader.start source.reliable chunkSize) :=
      ⟨Feed.twin_start source chunkSize, rfl, rfl⟩
    exact hstart.behind.reads sizes hsizes hleft

/-- A stream of no blocks. -/
def emptyStream : List UInt8 :=
  [0x42, 0x5a, 0x68, 0x39, 0x17, 0x72, 0x45, 0x38, 0x50, 0x90, 0, 0, 0, 0]

def notYet : Delivery := .failure ⟨.wouldBlock, "not yet"⟩

/-- A failure of the first request ends a stream that is read to its end without it. -/
theorem failure_corrupts :
    (answered ((Reader.start (.ofData emptyStream [notYet]) 16).reads [1, 1])).map Reading.result =
        [.error (.fault (.stream .badSignature))] ∧
      ((Reader.start (Source.ofData emptyStream [notYet]).reliable 16).reads [1]).map
        Reading.result = [.ok #[]] := by
  decide +kernel

/-- The reads of a stream whose second request fails, when every delivery fills the buffer. -/
def spacedReads : List Reading :=
  (Reader.start (.ofData emptyStream [.atMost 1, notYet]) 1).reads [1, 1]

theorem answers_of_failures_spaced :
    (∀ reading ∈ spacedReads, reading.failed = true → reading.LeavesNothing) ∧
      (answered spacedReads).map Reading.answer =
        ((Reader.start (Source.ofData emptyStream [.atMost 1, notYet]).reliable 1).reads
          ((answered spacedReads).map Reading.size)).map Reading.answer := by
  have hleft : ∀ reading ∈ spacedReads, reading.failed = true → reading.LeavesNothing := by
    unfold Reading.LeavesNothing
    decide +kernel
  exact ⟨hleft,
    (answers_of_failures (.ofData emptyStream [.atMost 1, notYet]) 1 [1, 1] (by decide)).2 hleft⟩

end Bunzip.Input
