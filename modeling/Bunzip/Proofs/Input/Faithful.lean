import Bunzip.Proofs.Input.Failures
import Bunzip.Proofs.Stream.Live

/-!
# What a reader gives

Let a source deliver its data piece by piece, interrupted or not. A reader of it gives the bytes of
the blocks that a decompressor gives when it is fed the data at once, and behind the last of them
what the decompressor ends with (`reads_ofData`).

The feed of the reader follows a decompressor that has all the data: the state is the same, and so
are the bits that were not read, wherever they are (`Feed.Follows`). Each block of the feed is then
that of one call (`Feed.Follows.nextBlock`), and the reader owes its caller the rest of the block
and what the further calls give (`Reader.Owes`).
-/

namespace Bunzip.Input

open Bunzip.Stream

/-! ## Patient sources -/

/-- A delivery that the data survive: some bytes, or an interruption. -/
def Delivery.isHarmless : Delivery → Bool
  | .atMost count => count != 0
  | .failure reason => reason.kind == .interrupted

theorem Source.receive_of_harmless {source : Source} {room : Nat}
    (h : ∀ delivery ∈ source.plan, delivery.isHarmless = true) (hroom : 0 < room) :
    ∃ bytes after, source.receive room = (.ok bytes, after) ∧
      (∀ delivery ∈ after.plan, delivery.isHarmless = true) ∧
      (bytes = [] → after.unread = []) := by
  have hnil {data : List UInt8} {count : Nat} (hcount : 0 < count) (htake : data.take count = []) :
      data.drop count = [] := by
    rcases List.take_eq_nil_iff.1 htake with hzero | rfl
    · omega
    · exact List.drop_nil
  fun_induction Source.receive source room with
  | case1 source text plan hplan ih =>
    exact ih fun delivery hmem => h delivery (hplan ▸ List.mem_cons_of_mem _ hmem)
  | case2 source hplan =>
    unfold Source.request
    cases hcase : source.plan with
    | nil => exact ⟨_, _, rfl, fun delivery hmem => h delivery (hcase ▸ hmem), hnil hroom⟩
    | cons delivery plan =>
      rw [hcase] at h
      have hfirst := h delivery List.mem_cons_self
      cases delivery with
      | atMost count =>
        have hcount : count ≠ 0 := by simpa [Delivery.isHarmless] using hfirst
        exact ⟨_, _, rfl, fun delivery hmem => h delivery (List.mem_cons_of_mem _ hmem),
          hnil (by omega)⟩
      | failure failure =>
        obtain ⟨kind, text⟩ := failure
        obtain rfl : kind = .interrupted := by simpa [Delivery.isHarmless] using hfirst
        exact absurd hcase (hplan text plan)

/-! ## Feeds -/

namespace Feed

/-- The bytes that the decompressor has not used, delivered or not. -/
def remaining (f : Feed) : List UInt8 := f.unread ++ f.source.unread

/-- A feed with a buffer that can exist and a source that delivers its data to the end. -/
structure Supplied (f : Feed) : Prop where
  capacity : f.chunkSize ≤ maxBufferBytes
  harmless : ∀ delivery ∈ f.source.plan, delivery.isHarmless = true
  exhausted : f.exhausted = true → f.source.unread = []

/-- The feed is where a decompressor with all of the remaining data is. -/
structure Follows (f : Feed) (d : Decompressor) (left : List UInt8) : Prop where
  supplied : f.Supplied
  state : f.decompressor.state = d.state
  unread : f.decompressor.unread f.remaining = d.unread left

/-- What a feed gives for the result of a call. -/
def answer : Except Fault Event → Except ReadFailure (Option (Array UInt8))
  | .ok (.block data) => .ok (some data)
  | .ok .endOfStream => .ok none
  | .ok .suspended => .error .truncated
  | .error fault => .error (.fault fault)

/-- A feed gave what a call gives, and is where the call has led. After a fault nothing is left. -/
structure Matches (out : Except ReadFailure (Option (Array UInt8)) × Feed) (call : Call) :
    Prop where
  result : out.1 = answer call.result
  supplied : out.2.Supplied
  state : out.2.decompressor.state = call.next.state
  unread : (∀ fault, call.result ≠ .error fault) →
    out.2.decompressor.unread out.2.remaining = call.unread

variable {f : Feed} {d : Decompressor} {left : List UInt8}
variable {out : Except ReadFailure (Option (Array UInt8)) × Feed}

theorem Supplied.follows (h : f.Supplied) : f.Follows f.decompressor f.remaining := ⟨h, rfl, rfl⟩

theorem Supplied.took (h : f.Supplied) (call : Call) : (f.took call).Supplied :=
  ⟨h.capacity, h.harmless, h.exhausted⟩

theorem Matches.follows {call : Call} (h : Matches out call)
    (hresult : ∀ fault, call.result ≠ .error fault) : out.2.Follows call.next call.rest :=
  ⟨h.supplied, h.state, h.unread hresult⟩

theorem Matches.congr {call other : Call} (h : Matches out call) (htwin : Call.Twin [] call other) :
    Matches out other := by
  refine ⟨?_, h.supplied, h.state.trans htwin.state.symm, fun hne => ?_⟩
  · rw [htwin.result]
    exact h.result
  · rw [htwin.result] at hne
    rw [htwin.unread hne, List.append_nil]
    exact h.unread hne

theorem Supplied.fill (h : f.Supplied) (hempty : f.unread = []) :
    ∃ after, f.fill = (.ok (), after) ∧ after.Supplied ∧ after.remaining = f.remaining := by
  obtain ⟨bytes, source, hreceive, hharmless, hend⟩ :=
    Source.receive_of_harmless h.harmless f.chunkSize_pos
  have hunread := Source.unread_receive hreceive
  unfold Feed.fill
  rw [checkCapacity_eq_ok_iff.2 h.capacity, hreceive]
  refine ⟨_, rfl, ⟨h.capacity, hharmless, fun hexhausted => hend ?_⟩, ?_⟩
  · exact List.isEmpty_iff.1 hexhausted
  · rw [remaining, remaining, hempty, List.nil_append]
    exact hunread

theorem work_of_not_waiting (h : ¬ ((f.decompressor.decompress f.unread).result = .ok .suspended ∧
    f.exhausted = false)) :
    f.work = (answer (f.decompressor.decompress f.unread).result,
      f.took (f.decompressor.decompress f.unread)) := by
  rw [work_eq]
  generalize f.decompressor.decompress f.unread = call at h ⊢
  obtain ⟨result, rest, reserved, next⟩ := call
  match result with
  | .error _ => rfl
  | .ok (.block _) => rfl
  | .ok .endOfStream => rfl
  | .ok .suspended =>
    have hexhausted : f.exhausted = true := by simpa using h
    simp only [hexhausted]
    rfl

theorem unread_remaining (f : Feed) : f.decompressor.unread f.remaining =
    f.decompressor.unread f.unread ++ Bits.ofBytes f.source.unread := by
  rw [Decompressor.unread, remaining, Bits.ofBytes_append, ← List.append_assoc]
  rfl

/-- A call on the buffer that does what the call on all of the data does decides what the feed
gives. -/
theorem Follows.work_of_twin (h : f.Follows d left)
    (hnot : ¬ ((f.decompressor.decompress f.unread).result = .ok .suspended ∧
      f.exhausted = false))
    (htwin : Call.Twin (Bits.ofBytes f.source.unread) (f.decompressor.decompress f.unread)
      (d.decompress left)) : Matches f.work (d.decompress left) := by
  rw [work_of_not_waiting hnot]
  refine ⟨?_, h.supplied.took _, htwin.state.symm, fun hne => ?_⟩
  · rw [htwin.result]
  · rw [htwin.result] at hne
    rw [htwin.unread hne]
    exact unread_remaining (f.took _)

/-- The calls on the chunks of a feed give what one call on all of the data gives. -/
theorem Follows.work (h : f.Follows d left) (hsound : d.state.Sound) :
    Matches f.work (d.decompress left) := by
  induction htoCome : f.toCome using Nat.strongRecOn generalizing f d left with
  | ind n ih =>
    have hbits := h.unread.symm.trans (unread_remaining f)
    have hsound' : f.decompressor.state.Sound := h.state ▸ hsound
    cases hexhausted : f.exhausted with
    | true =>
      have hend : Bits.ofBytes f.source.unread = [] := by rw [h.supplied.exhausted hexhausted]; rfl
      refine h.work_of_twin (by simp [hexhausted]) ?_
      rw [hend, List.append_nil] at hbits
      rw [hend]
      exact Decompressor.twin_decompress_congr hsound' h.state.symm hbits
    | false =>
      rcases Decompressor.twin_decompress_append hsound' h.state.symm hbits with
        ⟨hne, htwin⟩ | ⟨hsuspended, hresume⟩
      · exact h.work_of_twin (fun hwaits => hne hwaits.1) htwin
      · -- the call goes on with the next chunk, and on all of the data as well
        obtain ⟨after, hfill, hsupplied, hremaining⟩ :=
          (h.supplied.took (f.decompressor.decompress f.unread)).fill
            (Decompressor.rest_of_suspended hsuspended)
        obtain ⟨hlt, hdecompressor⟩ := toCome_fill hfill hexhausted
        rw [work_of_suspended hsuspended hexhausted, hfill]
        have hafter := hsupplied.follows
        rw [hdecompressor, hremaining] at hafter
        refine (ih _ (htoCome ▸ hlt) hafter (Decompressor.sound_decompress hsound' _) rfl).congr ?_
        exact hresume _ _ rfl (unread_remaining (f.took _))

/-- The next block of a feed is that of a call on all of the data. -/
theorem Follows.nextBlock (h : f.Follows d left) (hsound : d.state.Sound)
    (hopen : d.state.phase ≠ .closed) : Matches f.nextBlock (d.decompress left) := by
  by_cases hended : d.state.phase = .ended
  · have hfinished : f.decompressor.isFinished = true := by
      rw [Decompressor.isFinished, h.state, hended]
    rw [Feed.nextBlock, if_pos hfinished, Decompressor.decompress_of_ended hended]
    exact ⟨rfl, h.supplied, h.state, fun _ => h.unread⟩
  have hgoes : f.decompressor.isFinished = false := by
    unfold Decompressor.isFinished
    rw [h.state]
    split
    · exact absurd ‹_› hended
    · exact absurd ‹_› hopen
    · rfl
  by_cases hneeds : f.unread = [] ∧ f.exhausted = false
  · obtain ⟨after, hfill, hsupplied, hremaining⟩ := h.supplied.fill hneeds.1
    have hdecompressor := (toCome_fill hfill hneeds.2).2
    rw [nextBlock_of_empty hgoes hneeds.1 hneeds.2, hfill]
    refine Follows.work ⟨hsupplied, ?_, ?_⟩ hsound
    · rw [hdecompressor, h.state]
    · rw [hdecompressor, hremaining, h.unread]
  · rw [nextBlock_of_busy hgoes hneeds]
    exact h.work hsound

end Feed

/-! ## Reads -/

/-- The bytes of the blocks that calls give. -/
def bytesGiven (calls : List Call) : List UInt8 := (given calls).flatMap Array.toList

/-- What reads give behind the last byte, by what the last call gave: nothing for ever behind the
end of the stream or a fault, which is reported once, and a failure every time if the data end
first. -/
def behind : Except Fault Event → Nat → List (Except ReadFailure (Array UInt8))
  | .error fault, count + 1 => .error (.fault fault) :: List.replicate count (.ok #[])
  | .ok .suspended, count => List.replicate count (.error .truncated)
  | _, count => List.replicate count (.ok #[])

theorem bytesGiven_of_not_block {call : Call} (h : ∀ data, call.result ≠ .ok (.block data)) :
    bytesGiven [call] = [] := by
  have hnone : call.block? = none := by
    unfold Call.block?
    split
    · exact absurd ‹_› (h _)
    · rfl
  rw [bytesGiven, given, List.filterMap_cons_none hnone]
  rfl

theorem length_behind (ending : Except Fault Event) (count : Nat) :
    (behind ending count).length = count := by
  unfold behind
  split
  · rw [List.length_cons, List.length_replicate]
  · exact List.length_replicate
  · exact List.length_replicate

theorem length_le_flatMap {pieces : List (Array UInt8)} (h : ∀ piece ∈ pieces, piece ≠ #[]) :
    pieces.length ≤ (pieces.flatMap Array.toList).length := by
  induction pieces with
  | nil => exact Nat.le_refl 0
  | cons piece pieces ih =>
    have hpos := Array.size_pos_iff.2 (h piece List.mem_cons_self)
    have := ih fun other hother => h other (List.mem_cons_of_mem _ hother)
    have hlength : piece.toList.length = piece.size := Array.length_toList
    rw [List.length_cons, List.flatMap_cons, List.length_append]
    omega

namespace Reader

theorem length_reads (r : Reader) (sizes : List Nat) : (r.reads sizes).length = sizes.length := by
  induction sizes generalizing r with
  | nil => rfl
  | cons size sizes ih => rw [Reader.reads, List.length_cons, List.length_cons, ih]

/-- The reader owes its caller these bytes: the rest of the block, and the blocks of the further
calls on all of the data. The last of the calls gives `ending`. -/
def Owes (r : Reader) (bytes : List UInt8) (ending : Except Fault Event) : Prop :=
  ∃ (d : Decompressor) (left : List UInt8), r.feed.Follows d left ∧ d.Live ∧
    bytes = r.block.toList.drop r.served ++ bytesGiven (d.drain left) ∧
    ∃ last, (d.drain left).getLast? = some last ∧ last.result = ending

variable {r : Reader} {bytes : List UInt8} {ending : Except Fault Event} {size : Nat}

theorem toList_serve (r : Reader) (size : Nat) :
    (r.serve size).1.toList = (r.block.toList.drop r.served).take size := by
  simp [Reader.serve]

theorem serve_append (r : Reader) (size : Nat) :
    (r.serve size).1.toList ++ r.block.toList.drop (r.serve size).2.served =
      r.block.toList.drop r.served := by
  have hprefix : (r.serve size).1.toList <+: r.block.toList.drop r.served :=
    toList_serve r size ▸ List.take_prefix _ _
  rw [List.prefix_iff_eq_append, List.drop_drop, Array.length_toList] at hprefix
  exact hprefix

theorem Owes.serve (h : r.Owes bytes ending) (hsize : 0 < size)
    (hserved : r.served < r.block.size) :
    (r.serve size).1 ≠ #[] ∧ ∃ rest, bytes = (r.serve size).1.toList ++ rest ∧
      (r.serve size).2.Owes rest ending := by
  obtain ⟨d, left, hfollows, hlive, rfl, hlast⟩ := h
  constructor
  · intro hnil
    have hlength := congrArg List.length (toList_serve r size)
    rw [hnil, List.length_take, List.length_drop, Array.length_toList, Array.length_toList,
      Array.size_empty] at hlength
    omega
  · refine ⟨r.block.toList.drop (r.serve size).2.served ++ bytesGiven (d.drain left), ?_, d, left,
      hfollows, hlive, rfl, hlast⟩
    rw [← serve_append r size, List.append_assoc]

theorem owes_of_ended {feed : Feed} {block : Array UInt8} {served : Nat} (h : feed.Supplied)
    (hphase : feed.decompressor.state.phase = .ended) (hserved : block.size ≤ served) :
    Owes ⟨feed, block, served⟩ [] (.ok .endOfStream) := by
  refine ⟨_, _, h.follows, Decompressor.live_of_ended hphase, ?_, ?_⟩
  · rw [Decompressor.drain_of_ended hphase, List.drop_eq_nil_of_le hserved]
    rfl
  · rw [Decompressor.drain_of_ended hphase]
    exact ⟨_, rfl, rfl⟩

/-- Once the calls give no more blocks, nothing is owed but to tell why. -/
theorem owes_of_not_block {d : Decompressor} {left : List UInt8} {feed : Feed} {block : Array UInt8}
    {served : Nat} {result : Except ReadFailure (Option (Array UInt8))}
    (h : Feed.Matches (result, feed) (d.decompress left)) (hlive : d.Live)
    (hnot : ∀ data, (d.decompress left).result ≠ .ok (.block data)) (hserved : block.size ≤ served) :
    ∃ ending, Owes ⟨feed, block, served⟩ [] ending ∧
      ((∃ failure, result = .error failure ∧ ∀ count,
          behind (d.decompress left).result (count + 1) = .error failure :: behind ending count) ∨
        result = .ok none ∧ ∀ count,
          behind (d.decompress left).result (count + 1) = .ok #[] :: behind ending count) := by
  obtain ⟨hresult, hsupplied, hstate, hunread⟩ := h
  have hcall := hlive.decompress left
  cases hgives : (d.decompress left).result with
  | error fault =>
    rw [hgives] at hcall hresult
    have hphase := (congrArg State.phase hstate).trans hcall
    exact ⟨_, owes_of_ended hsupplied hphase hserved, .inl ⟨_, hresult, fun count => rfl⟩⟩
  | ok event =>
    rw [hgives] at hcall hresult hunread
    cases event with
    | block data => exact absurd hgives (hnot data)
    | endOfStream =>
      have hphase := (congrArg State.phase hstate).trans hcall
      exact ⟨_, owes_of_ended hsupplied hphase hserved, .inr ⟨hresult, fun count => rfl⟩⟩
    | suspended =>
      have hfollows : feed.Follows _ _ := ⟨hsupplied, hstate, hunread (by simp)⟩
      obtain ⟨last, hdrain, hlast⟩ := Decompressor.drain_of_suspended hgives
      have hnothing : [] = block.toList.drop served ++ bytesGiven [last] := by
        rw [bytesGiven_of_not_block (by simp [hlast]),
          List.drop_eq_nil_of_le (Array.length_toList ▸ hserved)]
        rfl
      refine ⟨.ok .suspended, ⟨_, _, hfollows, hcall, ?_, last, ?_, hlast⟩,
        .inl ⟨_, hresult, fun count => rfl⟩⟩
      · rw [hdrain]
        exact hnothing
      · rw [hdrain]
        rfl

/-- A read gives a piece of what is owed, or tells why there is none. -/
theorem Owes.read (h : r.Owes bytes ending) (hsize : 0 < size) :
    (∃ piece rest, bytes = piece.toList ++ rest ∧ piece ≠ #[] ∧ (r.read size).1 = .ok piece ∧
        (r.read size).2.Owes rest ending) ∨
      bytes = [] ∧ ∃ ending', (r.read size).2.Owes [] ending' ∧
        ∀ count, behind ending (count + 1) = (r.read size).1 :: behind ending' count := by
  by_cases hserved : r.served < r.block.size
  · obtain ⟨hpiece, rest, hbytes, hrest⟩ := h.serve hsize hserved
    rw [read_of_serving hsize hserved]
    exact .inl ⟨_, rest, hbytes, hpiece, rfl, hrest⟩
  obtain ⟨d, left, hfollows, hlive, rfl, last, hlast, rfl⟩ := h
  have hle : r.block.size ≤ r.served := Nat.le_of_not_lt hserved
  have hmatches := hfollows.nextBlock hlive.sound hlive.phase_ne_closed
  rw [read_of_served hsize hle, List.drop_eq_nil_of_le (Array.length_toList ▸ hle), List.nil_append]
  generalize r.feed.nextBlock = out at hmatches ⊢
  obtain ⟨result, feed⟩ := out
  -- the block is served to its end, so it is the next call that decides
  by_cases hblock : ∃ data, (d.decompress left).result = .ok (.block data)
  · obtain ⟨data, hdata⟩ := hblock
    obtain rfl : result = .ok (some data) := hmatches.result.trans (congrArg Feed.answer hdata)
    have hcall := hlive.decompress left
    rw [hdata] at hcall
    rw [Decompressor.drain_of_block hdata, List.getLast?_cons_of_ne_nil
      (Decompressor.drain_ne_nil _ _)] at hlast
    have hnext : Owes ⟨feed, data, 0⟩ (bytesGiven (d.drain left)) last.result := by
      refine ⟨_, _, hmatches.follows (by simp [hdata]), hcall.2, ?_, last, hlast, rfl⟩
      rw [Decompressor.drain_of_block hdata, bytesGiven, given, List.filterMap_cons_some
        (show (d.decompress left).block? = some data by rw [Call.block?, hdata])]
      rfl
    obtain ⟨hpiece, rest, hbytes, hrest⟩ := hnext.serve hsize (Array.size_pos_iff.2 hcall.1)
    exact .inl ⟨_, rest, hbytes, hpiece, rfl, hrest⟩
  · have hnot : ∀ data, (d.decompress left).result ≠ .ok (.block data) :=
      fun data hdata => hblock ⟨data, hdata⟩
    rw [Decompressor.drain_of_not_block hnot] at hlast ⊢
    obtain rfl : d.decompress left = last := by simpa using hlast
    refine .inr ⟨bytesGiven_of_not_block hnot, ?_⟩
    obtain ⟨ending', howes, ⟨failure, rfl, hbehind⟩ | ⟨rfl, hbehind⟩⟩ :=
      owes_of_not_block hmatches hlive hnot hle
    · exact ⟨ending', howes, hbehind⟩
    · exact ⟨ending', howes, hbehind⟩

/-- Behind the last byte the reads tell why there are no more. -/
theorem Owes.reads_behind {sizes : List Nat} (h : r.Owes [] ending)
    (hsizes : ∀ size ∈ sizes, 0 < size) :
    (r.reads sizes).map Reading.result = behind ending sizes.length := by
  induction sizes generalizing r ending with
  | nil => exact (List.eq_nil_of_length_eq_zero (length_behind ending 0)).symm
  | cons size sizes ih =>
    rcases h.read (hsizes size List.mem_cons_self) with ⟨piece, rest, hnil, hpiece, -⟩ |
      ⟨-, ending', hafter, hbehind⟩
    · exact absurd (Array.toList_eq_nil_iff.1 (List.append_eq_nil_iff.1 hnil.symm).1) hpiece
    · rw [List.length_cons, hbehind, ← ih hafter fun s hs => hsizes s (List.mem_cons_of_mem _ hs)]
      rfl

/-- Reads give what is owed, piece by piece, and then tell why there is no more. -/
theorem Owes.reads {sizes : List Nat} (h : r.Owes bytes ending)
    (hsizes : ∀ size ∈ sizes, 0 < size) :
    ∃ (pieces : List (Array UInt8)) (count : Nat),
      (r.reads sizes).map Reading.result = pieces.map .ok ++ behind ending count ∧
      (∀ piece ∈ pieces, piece ≠ #[]) ∧ pieces.flatMap Array.toList <+: bytes ∧
      (count ≠ 0 → pieces.flatMap Array.toList = bytes) := by
  induction sizes generalizing r bytes with
  | nil =>
    refine ⟨[], 0, ?_, List.forall_mem_nil _, List.nil_prefix, fun hne => absurd rfl hne⟩
    rw [List.eq_nil_of_length_eq_zero (length_behind ending 0)]
    rfl
  | cons size sizes ih =>
    have hsizes' : ∀ size ∈ sizes, 0 < size := fun s hs => hsizes s (List.mem_cons_of_mem _ hs)
    rcases h.read (hsizes size List.mem_cons_self) with ⟨piece, rest, rfl, hpiece, hresult, hrest⟩ |
      ⟨rfl, -⟩
    · obtain ⟨pieces, count, hresults, hpieces, hprefix, hall⟩ := ih hrest hsizes'
      refine ⟨piece :: pieces, count, ?_, ?_, ?_, fun hne => ?_⟩
      · rw [Reader.reads, List.map_cons, hresults, hresult]
        rfl
      · intro other hother
        rcases List.mem_cons.1 hother with rfl | hother
        · exact hpiece
        · exact hpieces other hother
      · rw [List.flatMap_cons]
        exact (List.prefix_append_right_inj _).2 hprefix
      · rw [List.flatMap_cons, hall hne]
    · exact ⟨[], (size :: sizes).length, h.reads_behind hsizes, List.forall_mem_nil _,
        List.nil_prefix, fun _ => rfl⟩

theorem owes_start (data : List UInt8) {plan : List Delivery} {chunkSize : Nat} {last : Call}
    (hchunk : chunkSize ≤ maxBufferBytes) (hplan : ∀ delivery ∈ plan, delivery.isHarmless = true)
    (hlast : (Decompressor.start.drain data).getLast? = some last) :
    (Reader.start (.ofData data plan) chunkSize).Owes (bytesGiven (Decompressor.start.drain data))
      last.result := by
  refine ⟨Decompressor.start, data, ?_, Decompressor.live_start, rfl, last, hlast, rfl⟩
  have hcapacity : max chunkSize 1 ≤ maxBufferBytes := by
    unfold maxBufferBytes at *
    omega
  exact (show (Feed.start (.ofData data plan) chunkSize).Supplied from
    ⟨hcapacity, hplan, nofun⟩).follows

end Reader

/-- Let a source deliver its data in any pieces and be interrupted any number of times, and let the
chunk buffer have a size that a buffer can have. Then reads of any sizes give the bytes of the
blocks that a decompressor gives for the data at once, each read at least one, and behind the last
byte they tell what its last call gives. -/
theorem reads_ofData (data : List UInt8) (plan : List Delivery) (chunkSize : Nat) (sizes : List Nat)
    (hchunk : chunkSize ≤ maxBufferBytes) (hplan : ∀ delivery ∈ plan, delivery.isHarmless = true)
    (hsizes : ∀ size ∈ sizes, 0 < size) :
    ∃ (last : Call) (pieces : List (Array UInt8)) (count : Nat),
      (Decompressor.start.drain data).getLast? = some last ∧
      (∀ block, last.result ≠ .ok (.block block)) ∧
      (∀ fault, last.result = .error fault → fault.isUsage = false) ∧
      ((Reader.start (.ofData data plan) chunkSize).reads sizes).map Reading.result =
        pieces.map .ok ++ behind last.result count ∧
      (∀ piece ∈ pieces, piece ≠ #[]) ∧
      pieces.flatMap Array.toList <+: bytesGiven (Decompressor.start.drain data) ∧
      (count ≠ 0 → pieces.flatMap Array.toList = bytesGiven (Decompressor.start.drain data)) ∧
      ((bytesGiven (Decompressor.start.drain data)).length < sizes.length → count ≠ 0) := by
  have hlast := List.getLast?_eq_some_getLast (Decompressor.drain_ne_nil Decompressor.start data)
  generalize (Decompressor.start.drain data).getLast _ = last at hlast
  obtain ⟨hblock, husage⟩ := Decompressor.live_start.result_of_drain hlast
  obtain ⟨pieces, count, hresults, hpieces, hprefix, hall⟩ :=
    (Reader.owes_start data hchunk hplan hlast).reads hsizes
  refine ⟨last, pieces, count, hlast, hblock, husage, hresults, hpieces, hprefix, hall, ?_⟩
  rintro hlong rfl
  have hcount := congrArg List.length hresults
  rw [List.length_map, Reader.length_reads, List.length_append, List.length_map,
    length_behind] at hcount
  have hle := length_le_flatMap hpieces
  have := hprefix.length_le
  omega

/-- A stream of one byte. -/
def byteStream : StreamText :=
  StreamText.ofData 1 [(⟨false, 0, [[1, 2, 2], [2, 2, 1]], fun _ => 1⟩, [98])]

theorem drain_byteStream : (Decompressor.start.drain byteStream.bytes).map (·.result) =
    [.ok (.block #[98]), .ok .endOfStream] := by
  have hused : (BlockText.usedOf (BlockText.columnOf false [98])).length = 1 := by
    have hcolumn : BlockText.columnOf false [98] = [98] := by cbv
    rw [hcolumn]
    decide +kernel
  have hrow : (Block.Rotations.sorted (BlockText.prepared false [98]))[0]? =
      some (BlockText.prepared false [98]) := by cbv
  have hadmissible : BlockText.Admissible ⟨false, 0, [[1, 2, 2], [2, 2, 1]], fun _ => 1⟩ [98] :=
    ⟨hrow, by decide, by decide, by simp [hused], by decide, by decide, fun _ => Nat.one_lt_two⟩
  have hvalid : byteStream.Valid := by
    refine ⟨by decide, by decide, fun b hb => ?_⟩
    rw [List.mem_singleton.1 hb]
    exact BlockText.valid_ofData hadmissible (List.cons_ne_nil _ _) (by decide +kernel) (by decide)
  have hdrain := StreamText.drain_bytes hvalid []
  rw [List.append_nil] at hdrain
  rw [hdrain]
  show [Except.ok (Event.block (BlockText.ofData _ [98]).data.toArray), _] = _
  rw [BlockText.data_ofData hadmissible (List.cons_ne_nil _ _)]

/-- The stream of one byte, delivered byte by byte after an interruption. -/
theorem reads_ofData_single :
    ∃ (pieces : List (Array UInt8)) (count : Nat),
      ((Reader.start (.ofData byteStream.bytes [.failure ⟨.interrupted, "again"⟩]) 1).reads
        [1, 4]).map Reading.result = pieces.map .ok ++ behind (.ok .endOfStream) count ∧
      count ≠ 0 ∧ pieces.flatMap Array.toList = [98] := by
  obtain ⟨last, pieces, count, hlast, -, -, hresults, -, -, hall, hcount⟩ :=
    reads_ofData byteStream.bytes [.failure ⟨.interrupted, "again"⟩] 1 [1, 4] (by decide)
      (by decide) (by decide)
  have hdrain := drain_byteStream
  obtain ⟨block, ends, hcalls, hblock, hends⟩ : ∃ block ends,
      Decompressor.start.drain byteStream.bytes = [block, ends] ∧
        block.result = .ok (.block #[98]) ∧ ends.result = .ok .endOfStream := by
    obtain ⟨block, calls, hcalls, hblock, hmap⟩ := List.map_eq_cons_iff.1 hdrain
    obtain ⟨ends, hends, hresult⟩ := List.map_eq_singleton_iff.1 hmap
    exact ⟨block, ends, hends ▸ hcalls, hblock, hresult⟩
  have hgiven : bytesGiven [block, ends] = [98] := by
    simp [bytesGiven, given, Call.block?, hblock, hends]
  rw [hcalls] at hlast hall hcount
  obtain rfl : ends = last := by simpa using hlast
  rw [hgiven] at hall hcount
  rw [hends] at hresults
  have hne := hcount (by decide)
  exact ⟨pieces, count, hresults, hne, hall hne⟩

/-- A chunk buffer that no buffer can be as large as stops the first read of a complete stream. -/
theorem oversized_chunk :
    ((Reader.start (.ofData emptyStream []) (2 ^ 63)).reads [1]).map Reading.result =
        [.error (.fault (.defect .noCapacity))] ∧
      (Decompressor.start.drain emptyStream).map (·.result) = [.ok .endOfStream] := by
  decide +kernel

end Bunzip.Input
