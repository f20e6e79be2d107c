import Bunzip.Proofs.Input.Faithful
import Bunzip.Proofs.Stream.Finality
import Bunzip.Proofs.Stream.Sizes

/-!
# Requests that are needed

A reader writes down the feeds on which it requests a chunk, each as it is at that moment
(`Reader.asks`); nothing else touches the source (`Feed.Goes`). Each of them is `Starved`: all of
the last chunk was used, and the decompressor, given no bytes, would ask for more. That this is so
without asking it rests on the bound on kept bits (`Decompressor.Reachable.decompress_nil`). A feed
that has finished, or has learnt that the source is exhausted, requests nothing
(`Feed.asks_of_settled`), so neither does its reader from then on (`Reader.requests_needed`).
-/

namespace Bunzip.Input

open Bunzip.Stream

namespace Feed

/-! ## Requests of a feed -/

/-- The feeds that request a chunk while `work` goes on, in order. -/
def asksInWork (f : Feed) : List Feed :=
  let call := f.decompressor.decompress f.unread
  if _hwaits : call.result = .ok .suspended ∧ f.exhausted = false then
    match _h : (f.took call).fill with
    | (.ok (), next) => f.took call :: next.asksInWork
    | (.error _, _) => [f.took call]
  else []
termination_by f.toCome
decreasing_by exact (toCome_fill _h _hwaits.2).1

/-- The feeds that request a chunk for the next block, in order. -/
def asks (f : Feed) : List Feed :=
  if f.decompressor.isFinished then []
  else if f.buffer.isEmpty && !f.exhausted then
    match f.fill with
    | (.ok (), next) => f :: next.asksInWork
    | (.error _, _) => [f]
  else f.asksInWork

/-- The feed goes on by calls of the decompressor and by requests, and `asked` are the feeds that
made the requests. -/
inductive Goes : Feed → List Feed → Feed → Prop
  | stays (f : Feed) : Goes f [] f
  | calls {f after : Feed} {asked : List Feed}
    (h : Goes (f.took (f.decompressor.decompress f.unread)) asked after) : Goes f asked after
  | asks {f after : Feed} {asked : List Feed} (h : Goes f.fill.2 asked after) :
    Goes f (f :: asked) after

/-- Nothing is left to go on with, and more may come. -/
structure Starved (f : Feed) : Prop where
  not_finished : f.decompressor.isFinished = false
  unread_eq : f.unread = []
  not_exhausted : f.exhausted = false
  suspended : (f.decompressor.decompress []).result = .ok .suspended

/-- The source answers the request of this feed with no bytes. -/
def DeliversNothing (f : Feed) : Prop := ∃ after, f.fill = (.ok (), after) ∧ after.filled = 0

variable {f after : Feed} {asked : List Feed} {result : Except ReadFailure (Option (Array UInt8))}

theorem decompressor_fill (f : Feed) : f.fill.2.decompressor = f.decompressor := by
  unfold fill
  split
  · rfl
  split <;> rfl

theorem exhausted_of_deliversNothing (h : f.DeliversNothing) : f.fill.2.exhausted = true := by
  obtain ⟨after, hfill, hfilled⟩ := h
  rw [hfill]
  unfold fill at hfill
  split at hfill
  · cases hfill
  split at hfill
  · cases hfill
  · cases hfill
    exact List.isEmpty_iff.2 (List.length_eq_zero_iff.1 hfilled)

theorem Goes.source_eq (h : f.Goes [] after) : after.source = f.source := by
  generalize hnone : ([] : List Feed) = asked at h
  induction h with
  | stays => rfl
  | calls _ ih => exact ih hnone
  | asks => cases hnone

theorem Goes.reachable (h : f.Goes asked after) (hf : f.decompressor.Reachable) :
    after.decompressor.Reachable := by
  induction h with
  | stays => exact hf
  | calls _ ih => exact ih (hf.decompress _)
  | asks _ ih => exact ih (by rw [decompressor_fill]; exact hf)

theorem reachable_of_fill {answered : Except ReadFailure Unit} (h : f.decompressor.Reachable)
    (hfill : f.fill = (answered, after)) : after.decompressor.Reachable := by
  have hsame := decompressor_fill f
  rw [hfill] at hsame
  rwa [hsame]

/-! ## Starved feeds -/

/-- A feed whose chunk is used up is starved, whatever is kept of the chunks before. -/
theorem starved_of_empty (h : f.decompressor.Reachable) (hopen : f.decompressor.isFinished = false)
    (hempty : f.unread = []) (hexhausted : f.exhausted = false) : f.Starved :=
  ⟨hopen, hempty, hexhausted, by rw [h.decompress_nil hopen]⟩

theorem starved_of_suspended (h : f.decompressor.Reachable)
    (hresult : (f.decompressor.decompress f.unread).result = .ok .suspended)
    (hexhausted : f.exhausted = false) :
    (f.took (f.decompressor.decompress f.unread)).Starved :=
  starved_of_empty (h.decompress _) (Decompressor.isFinished_of_suspended hresult)
    (Decompressor.rest_of_suspended hresult) hexhausted

/-! ## Equations -/

/-- A starved feed requests a chunk, and works on with what it gets. -/
theorem Starved.asks_eq (h : f.Starved) : f.asks = match f.fill with
    | (.ok (), next) => f :: next.asksInWork
    | (.error _, _) => [f] := by
  have hbuffer : f.buffer.isEmpty = true := Buffer.isEmpty_iff.2 h.unread_eq
  simp only [asks, h.not_finished, hbuffer, h.not_exhausted]
  rfl

theorem asks_of_busy (hopen : f.decompressor.isFinished = false)
    (hbusy : ¬ (f.unread = [] ∧ f.exhausted = false)) : f.asks = f.asksInWork := by
  have hneeds : (f.buffer.isEmpty && !f.exhausted) = false := by
    rw [← Bool.not_eq_true, Bool.and_eq_true, Bool.not_eq_true', Buffer.isEmpty_iff]
    exact hbusy
  simp only [asks, hopen, hneeds]
  rfl

theorem asksInWork_of_suspended (h : f.decompressor.Reachable)
    (hresult : (f.decompressor.decompress f.unread).result = .ok .suspended)
    (hexhausted : f.exhausted = false) :
    f.asksInWork = (f.took (f.decompressor.decompress f.unread)).asks := by
  rw [asksInWork, dif_pos ⟨hresult, hexhausted⟩, (starved_of_suspended h hresult hexhausted).asks_eq]
  split <;> simp only [*]

theorem asksInWork_of_not_waiting (h : ¬ ((f.decompressor.decompress f.unread).result =
    .ok .suspended ∧ f.exhausted = false)) : f.asksInWork = [] := by
  rw [asksInWork, dif_neg h]

/-! ## Thrift -/

/-- What a feed requests on its way is needed, and only the last request may deliver nothing. -/
structure Thrifty (f : Feed) (asked : List Feed) (after : Feed) : Prop where
  goes : f.Goes asked after
  starved : ∀ g ∈ asked, g.Starved
  quiet : asked.Pairwise fun g _ => ¬ g.DeliversNothing
  exhausted : ∀ g ∈ asked, g.DeliversNothing → after.exhausted = true

theorem thrifty_stays (f : Feed) : f.Thrifty [] f where
  goes := .stays f
  starved := fun g hg => by cases hg
  quiet := .nil
  exhausted := fun g hg => by cases hg

theorem Thrifty.calls (h : (f.took (f.decompressor.decompress f.unread)).Thrifty asked after) :
    f.Thrifty asked after :=
  ⟨.calls h.goes, h.starved, h.quiet, h.exhausted⟩

theorem asksInWork_of_exhausted (h : f.exhausted = true) :
    f.asksInWork = [] ∧ f.work.2.exhausted = true := by
  have hwaits : ¬ ((f.decompressor.decompress f.unread).result = .ok .suspended ∧
      f.exhausted = false) := by
    simp [h]
  rw [asksInWork_of_not_waiting hwaits, work_of_not_waiting hwaits]
  exact ⟨rfl, h⟩

/-- A starved feed is thrifty if it is with what it gets. -/
theorem Starved.thrifty (h : f.Starved)
    (hwork : ∀ next, f.fill = (.ok (), next) → next.Thrifty next.asksInWork next.work.2) :
    f.Thrifty f.asks f.nextBlock.2 := by
  rw [h.asks_eq, nextBlock_of_empty h.not_finished h.unread_eq h.not_exhausted]
  have hnothing := exhausted_of_deliversNothing (f := f)
  cases hfill : f.fill with
  | mk result next =>
    rw [hfill] at hnothing
    cases result with
    | error failure =>
      refine ⟨.asks (by rw [hfill]; exact .stays next), ?_, List.pairwise_singleton _ _, ?_⟩
      · rintro g hg
        rwa [List.mem_singleton.1 hg]
      · rintro g hg hdelivers
        rw [List.mem_singleton.1 hg] at hdelivers
        exact hnothing hdelivers
    | ok =>
      obtain ⟨hgoes, hstarved, hquiet, hexhausted⟩ := hwork next hfill
      refine ⟨.asks (by rw [hfill]; exact hgoes), ?_, .cons ?_ hquiet, ?_⟩
      · rintro g hg
        rcases List.mem_cons.1 hg with rfl | hlater
        · exact h
        · exact hstarved g hlater
      · intro g hg hdelivers
        rw [(asksInWork_of_exhausted (hnothing hdelivers)).1] at hg
        cases hg
      · rintro g hg hdelivers
        rcases List.mem_cons.1 hg with rfl | hlater
        · exact (asksInWork_of_exhausted (hnothing hdelivers)).2
        · exact hexhausted g hlater hdelivers

theorem thrifty_work (h : f.decompressor.Reachable) : f.Thrifty f.asksInWork f.work.2 := by
  induction f using work_induction with
  | waits f hresult hexhausted ih =>
    have hstarved := starved_of_suspended h hresult hexhausted
    rw [asksInWork_of_suspended h hresult hexhausted, work_of_suspended hresult hexhausted,
      ← nextBlock_of_empty hstarved.not_finished hstarved.unread_eq hexhausted]
    exact (hstarved.thrifty fun next hfill =>
      ih next hfill (reachable_of_fill (h.decompress f.unread) hfill)).calls
  | stops f hwaits =>
    rw [asksInWork_of_not_waiting hwaits, work_of_not_waiting hwaits]
    exact (thrifty_stays _).calls

theorem thrifty_nextBlock (h : f.decompressor.Reachable) : f.Thrifty f.asks f.nextBlock.2 := by
  by_cases hopen : f.decompressor.isFinished = true
  · rw [asks, if_pos hopen, nextBlock, if_pos hopen]
    exact thrifty_stays f
  rw [Bool.not_eq_true] at hopen
  by_cases hneeds : f.unread = [] ∧ f.exhausted = false
  · exact (starved_of_empty h hopen hneeds.1 hneeds.2).thrifty fun next hfill =>
      thrifty_work (reachable_of_fill h hfill)
  · rw [asks_of_busy hopen hneeds, nextBlock_of_busy hopen hneeds]
    exact thrifty_work h

/-- A feed that has finished, or knows that nothing more comes, requests nothing. -/
def Settled (f : Feed) : Prop := f.decompressor.isFinished = true ∨ f.exhausted = true

theorem asks_of_settled (h : f.Settled) : f.asks = [] ∧ f.nextBlock.2.Settled := by
  by_cases hopen : f.decompressor.isFinished = true
  · rw [asks, if_pos hopen, nextBlock, if_pos hopen]
    exact ⟨rfl, h⟩
  have hexhausted := h.resolve_left hopen
  rw [Bool.not_eq_true] at hopen
  have hneeds : ¬ (f.unread = [] ∧ f.exhausted = false) := by simp [hexhausted]
  rw [asks_of_busy hopen hneeds, nextBlock_of_busy hopen hneeds]
  obtain ⟨hasks, hafter⟩ := asksInWork_of_exhausted hexhausted
  exact ⟨hasks, .inr hafter⟩

/-! ## Ends -/

/-- Where the stream ends, or an error in it is found, the decompressor has finished; a block has
data. -/
def Closes (out : Except ReadFailure (Option (Array UInt8)) × Feed) : Prop :=
  match out.1 with
  | .ok (some data) => 0 < data.size
  | .ok none => out.2.decompressor.isFinished = true
  | .error (.fault (.stream _)) => out.2.decompressor.isFinished = true
  | _ => True

theorem closes_of_fill {failure : ReadFailure} (h : f.fill = (.error failure, after)) :
    Closes (.error failure, after) := by
  unfold fill checkCapacity at h
  split at h
  · rename_i hcapacity
    split at hcapacity
    · cases hcapacity
    · cases hcapacity
      cases h
      trivial
  split at h
  · cases h
    trivial
  · cases h

theorem isFinished_of_ends {d : Decompressor} (chunk : List UInt8) (h : d.Reachable)
    (hends : (d.perform (.decompress chunk)).Ends) :
    (d.decompress chunk).next.isFinished = true := by
  have hphase : (d.decompress chunk).next.state.phase = .ended := h.ended_of_ends hends
  rw [Decompressor.isFinished, hphase]

theorem closes_call (h : f.decompressor.Reachable) :
    Closes (answer (f.decompressor.decompress f.unread).result,
      f.took (f.decompressor.decompress f.unread)) := by
  have hends := isFinished_of_ends f.unread h
  cases hresult : (f.decompressor.decompress f.unread).result with
  | error fault =>
    cases fault with
    | stream error =>
      exact hends (.inr ⟨error, Decompressor.result_perform_decompress.2 hresult⟩)
    | _ => trivial
  | ok event =>
    cases event with
    | suspended => trivial
    | block data =>
      obtain ⟨n, -, hpos, -, hge, -⟩ := h.size_of_block hresult
      show 0 < data.size
      omega
    | endOfStream =>
      refine hends (.inl ?_)
      rw [Decompressor.perform, hresult]
      rfl

theorem closes_work (h : f.decompressor.Reachable) : Closes f.work := by
  induction f using work_induction with
  | waits f hresult hexhausted ih =>
    rw [work_of_suspended hresult hexhausted]
    cases hfill : (f.took (f.decompressor.decompress f.unread)).fill with
    | mk result next =>
      cases result with
      | error failure => exact closes_of_fill hfill
      | ok => exact ih next hfill (reachable_of_fill (h.decompress f.unread) hfill)
  | stops f hwaits =>
    rw [work_of_not_waiting hwaits]
    exact closes_call h

theorem closes_nextBlock (h : f.decompressor.Reachable) : Closes f.nextBlock := by
  by_cases hopen : f.decompressor.isFinished = true
  · rw [nextBlock, if_pos hopen]
    exact hopen
  rw [Bool.not_eq_true] at hopen
  by_cases hneeds : f.unread = [] ∧ f.exhausted = false
  · rw [nextBlock_of_empty hopen hneeds.1 hneeds.2]
    cases hfill : f.fill with
    | mk result next =>
      cases result with
      | error failure => exact closes_of_fill hfill
      | ok => exact closes_work (reachable_of_fill h hfill)
  · rw [nextBlock_of_busy hopen hneeds]
    exact closes_work h

end Feed

/-! ## Reads -/

namespace Reader

def asks (r : Reader) (size : Nat) : List Feed :=
  if size = 0 ∨ r.served < r.block.size then [] else r.feed.asks

variable {r : Reader} {size : Nat}

/-- A read that serves, or that asks for nothing, leaves the feed alone. -/
theorem feed_read_of_serving (h : size = 0 ∨ r.served < r.block.size) :
    r.asks size = [] ∧ (r.read size).2.feed = r.feed := by
  refine ⟨if_pos h, ?_⟩
  rcases h with rfl | hserving
  · rw [read, if_pos rfl]
  · rcases Nat.eq_zero_or_pos size with rfl | hsize
    · rw [read, if_pos rfl]
    · rw [read_of_serving hsize hserving]
      rfl

theorem feed_read_of_served (h : ¬ (size = 0 ∨ r.served < r.block.size)) :
    r.asks size = r.feed.asks ∧ (r.read size).2.feed = r.feed.nextBlock.2 := by
  refine ⟨if_neg h, ?_⟩
  rw [read_of_served (by omega) (by omega)]
  cases r.feed.nextBlock with
  | mk result feed =>
    cases result with
    | error failure => rfl
    | ok data => cases data <;> rfl

theorem thrifty_read (h : r.feed.decompressor.Reachable) (size : Nat) :
    r.feed.Thrifty (r.asks size) (r.read size).2.feed := by
  by_cases hserving : size = 0 ∨ r.served < r.block.size
  · obtain ⟨hasks, hfeed⟩ := feed_read_of_serving hserving
    rw [hasks, hfeed]
    exact Feed.thrifty_stays _
  · obtain ⟨hasks, hfeed⟩ := feed_read_of_served hserving
    rw [hasks, hfeed]
    exact Feed.thrifty_nextBlock h

/-- A reader whose feed is settled requests nothing from then on. -/
theorem asks_of_settled (h : r.feed.Settled) (size : Nat) :
    r.asks size = [] ∧ (r.read size).2.feed.Settled := by
  by_cases hserving : size = 0 ∨ r.served < r.block.size
  · obtain ⟨hasks, hfeed⟩ := feed_read_of_serving hserving
    rw [hasks, hfeed]
    exact ⟨rfl, h⟩
  · obtain ⟨hasks, hfeed⟩ := feed_read_of_served hserving
    rw [hasks, hfeed]
    exact Feed.asks_of_settled h

end Reader

namespace Reading

def asks (reading : Reading) : List Feed := reading.before.asks reading.size

/-- The read came to the end of the stream, or to an error in it. -/
def Ends (reading : Reading) : Prop :=
  0 < reading.size ∧ reading.result = .ok #[] ∨
    ∃ error, reading.result = .error (.fault (.stream error))

end Reading

namespace Reader

variable {r : Reader} {size : Nat}

/-- After the end of the stream, or an error in it, the feed has finished. -/
theorem settled_of_ends (h : r.feed.decompressor.Reachable)
    (hends : Reading.Ends ⟨r, size, (r.read size).1, (r.read size).2⟩) :
    (r.read size).2.feed.Settled := by
  have hserved : ¬ (size = 0 ∨ r.served < r.block.size) := by
    rintro hserving
    rcases Nat.eq_zero_or_pos size with rfl | hsize
    · rcases hends with ⟨hpos, -⟩ | ⟨error, herror⟩
      · exact absurd hpos (Nat.lt_irrefl 0)
      · rw [read, if_pos rfl] at herror
        cases herror
    · rw [read_of_serving hsize (hserving.resolve_left (by omega))] at hends
      rcases hends with ⟨-, hempty⟩ | ⟨error, herror⟩
      · have hsizes := congrArg Array.size (Except.ok.inj hempty)
        simp only [serve, Array.size_extract, Array.size_empty] at hsizes
        omega
      · cases herror
  rw [(feed_read_of_served hserved).2]
  have hcloses := Feed.closes_nextBlock h
  rw [read_of_served (by omega) (by omega)] at hends
  generalize r.feed.nextBlock = out at hcloses hends ⊢
  obtain ⟨result, feed⟩ := out
  cases result with
  | error failure =>
    rcases hends with ⟨-, hempty⟩ | ⟨error, herror⟩
    · cases hempty
    · cases herror
      exact .inl hcloses
  | ok data =>
    cases data with
    | none => exact .inl hcloses
    | some data =>
      have hpos : 0 < data.size := hcloses
      rcases hends with ⟨hsize, hempty⟩ | ⟨error, herror⟩
      · have hsizes := congrArg Array.size (Except.ok.inj hempty)
        simp only [serve, Array.size_extract, Array.size_empty] at hsizes
        omega
      · cases herror

/-! ## Runs -/

/-- What any reads lead to is reachable, so each of them requests what it needs. -/
theorem thrifty_of_mem_reads (h : r.feed.decompressor.Reachable) {reading : Reading}
    {sizes : List Nat} (hmem : reading ∈ r.reads sizes) :
    reading.before.feed.Thrifty reading.asks reading.after.feed := by
  induction sizes generalizing r with
  | nil => cases hmem
  | cons size sizes ih =>
    have hread := thrifty_read h size
    rcases List.mem_cons.1 hmem with rfl | hlater
    · exact hread
    · exact ih (hread.goes.reachable h) hlater

theorem served_of_mem_asks {f : Feed} (h : f ∈ r.asks size) : r.block.size ≤ r.served := by
  unfold asks at h
  split at h
  · cases h
  · omega

theorem asks_of_mem_reads {reading : Reading} {sizes : List Nat} (h : r.feed.Settled)
    (hmem : reading ∈ r.reads sizes) : reading.asks = [] := by
  induction sizes generalizing r with
  | nil => cases hmem
  | cons size sizes ih =>
    obtain ⟨hasks, hafter⟩ := asks_of_settled h size
    rcases List.mem_cons.1 hmem with rfl | hlater
    · exact hasks
    · exact ih hafter hlater

/-- Behind the end of the stream, or an error in it, nothing is requested. -/
theorem pairwise_ends (h : r.feed.decompressor.Reachable) (sizes : List Nat) :
    (r.reads sizes).Pairwise fun earlier later => earlier.Ends → later.asks = [] := by
  induction sizes generalizing r with
  | nil => exact .nil
  | cons size sizes ih =>
    exact .cons (fun later hlater hends => asks_of_mem_reads (settled_of_ends h hends) hlater)
      (ih ((thrifty_read h size).goes.reachable h))

theorem pairwise_asks (h : r.feed.decompressor.Reachable) (sizes : List Nat) :
    ((r.reads sizes).flatMap Reading.asks).Pairwise fun f _ => ¬ f.DeliversNothing := by
  induction sizes generalizing r with
  | nil => exact .nil
  | cons size sizes ih =>
    have hread := thrifty_read h size
    rw [reads, List.flatMap_cons, List.pairwise_append]
    refine ⟨hread.quiet, ih (hread.goes.reachable h), fun f hf g hg hdelivers => ?_⟩
    obtain ⟨reading, hreading, hmem⟩ := List.mem_flatMap.1 hg
    rw [asks_of_mem_reads (.inr (hread.exhausted f hf hdelivers)) hreading] at hmem
    cases hmem

/-- Let a caller read pieces of any sizes. The source is touched by the requests alone, and each of
them is made when all of the last block was served, the decompressor has not finished, the chunk is
used up, and the decompressor, given no bytes, would ask for more. After the end of the stream, or
an error in it, nothing is requested and the source stays as it is; and a request that delivers
nothing is the last one. A request that is interrupted is made again where it was (`fill`), so this
is also said of its repetitions. -/
theorem requests_needed (source : Source) (chunkSize : Nat) (sizes : List Nat) :
    (∀ reading ∈ (start source chunkSize).reads sizes,
      reading.before.feed.Goes reading.asks reading.after.feed ∧
      ∀ f ∈ reading.asks, reading.before.block.size ≤ reading.before.served ∧ f.Starved) ∧
    ((start source chunkSize).reads sizes).Pairwise (fun earlier later => earlier.Ends →
      later.asks = [] ∧ later.after.feed.source = later.before.feed.source) ∧
    (((start source chunkSize).reads sizes).flatMap Reading.asks).Pairwise
      fun f _ => ¬ f.DeliversNothing := by
  have hstart : (start source chunkSize).feed.decompressor.Reachable := .start
  refine ⟨fun reading hmem => ?_, ?_, pairwise_asks hstart sizes⟩
  · have hread := thrifty_of_mem_reads hstart hmem
    exact ⟨hread.goes, fun f hf => ⟨served_of_mem_asks hf, hread.starved f hf⟩⟩
  · refine (pairwise_ends hstart sizes).imp_of_mem fun _ hmem hquiet hends => ?_
    have hgoes := (thrifty_of_mem_reads hstart hmem).goes
    rw [hquiet hends] at hgoes
    exact ⟨hquiet hends, hgoes.source_eq⟩

/-- A stream that comes in two pieces is requested twice by the first read, and no more by the
second. -/
theorem requests_needed_twice :
    ∃ first second, (start (.ofData emptyStream [.atMost 5]) 16).reads [1, 1] = [first, second] ∧
      first.asks.length = 2 ∧ (∀ f ∈ first.asks, f.Starved) ∧ second.asks = [] := by
  obtain ⟨hneeded, hends, -⟩ := requests_needed (.ofData emptyStream [.atMost 5]) 16 [1, 1]
  have hresult : ((start (.ofData emptyStream [.atMost 5]) 16).read 1).1 = .ok #[] := by
    decide +kernel
  have hasks : ((start (.ofData emptyStream [.atMost 5]) 16).asks 1).length = 2 := by
    decide +kernel
  obtain ⟨hfirst, -⟩ := List.pairwise_cons.1 hends
  exact ⟨_, _, rfl, hasks, fun f hf => ((hneeded _ List.mem_cons_self).2 f hf).2,
    (hfirst _ List.mem_cons_self (.inl ⟨Nat.one_pos, hresult⟩)).1⟩

end Reader

end Bunzip.Input
