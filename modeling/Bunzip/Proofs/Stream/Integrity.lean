import Bunzip.Proofs.Stream.History
import Mathlib.Data.List.Induction

/-!
# Integrity

Whatever chunks the calls are made on, each block that they give has the checksum that stands in its
header, the checksum of the stream is the fold of those of the blocks given so far, and the end of
the stream is reported only behind this checksum (`integrity`). A call keeps what the calls before
it have shown (`Shown.decompress`).
-/

namespace Bunzip.Stream

open Block

/-- The block that a call gives. -/
def Call.block? (call : Call) : Option (Array UInt8) :=
  match call.result with
  | .ok (.block data) => some data
  | _ => none

/-- Whether the stream goes on after a call. -/
def Call.goesOn (call : Call) : Bool :=
  match call.result with
  | .ok .suspended => true
  | .ok (.block _) => true
  | _ => false

def given (calls : List Call) : List (Array UInt8) := calls.filterMap Call.block?

theorem given_append (front back : List Call) : given (front ++ back) = given front ++ given back :=
  List.filterMap_append

def dataChecksum (blocks : List (Array UInt8)) : UInt32 :=
  Crc.foldAll (blocks.map fun data => Crc.ofBytes data.toList)

namespace Decompressor

def calls (d : Decompressor) : List (List UInt8) → List Call
  | [] => []
  | chunk :: chunks => d.decompress chunk :: (d.decompress chunk).next.calls chunks

/-- The bytes that the calls on chunks use. -/
def taken (d : Decompressor) : List (List UInt8) → List UInt8
  | [] => []
  | chunk :: chunks => chunk.take (chunk.length - (d.decompress chunk).rest.length) ++
    (d.decompress chunk).next.taken chunks

variable {d : Decompressor} {chunk : List UInt8} {chunks : List (List UInt8)}

theorem calls_concat (d : Decompressor) (chunks : List (List UInt8)) (chunk : List UInt8) :
    d.calls (chunks ++ [chunk]) =
      d.calls chunks ++ [(d.after (d.calls chunks)).decompress chunk] := by
  induction chunks generalizing d with
  | nil => rfl
  | cons first chunks ih =>
    rw [List.cons_append, calls, ih]
    rfl

theorem taken_concat {used : List UInt8}
    (h : chunk = used ++ ((d.after (d.calls chunks)).decompress chunk).rest) :
    d.taken (chunks ++ [chunk]) = d.taken chunks ++ used := by
  induction chunks generalizing d with
  | nil =>
    have hused : chunk = used ++ (d.decompress chunk).rest := h
    have hlength := congrArg List.length hused
    rw [List.length_append] at hlength
    have htake : chunk.take (chunk.length - (d.decompress chunk).rest.length) = used := by
      rw [show chunk.length - (d.decompress chunk).rest.length = used.length by omega]
      conv => lhs; rw [hused]
      exact List.take_left
    rw [List.nil_append, taken, taken, taken, htake, List.append_nil, List.nil_append]
  | cons first chunks ih =>
    rw [List.cons_append, taken, taken, ih h, List.append_assoc]

/-- What the calls so far have shown. -/
structure Shown (d : Decompressor) (calls : List Call) (texts : List BlockText)
    (taken : List UInt8) : Prop where
  given_eq : given calls = texts.map fun b => b.data.toArray
  stored_eq : ∀ b ∈ texts, b.stored = Crc.ofBytes b.data
  streamCrc_eq : d.state.streamCrc = dataChecksum (given calls)
  front : texts ≠ [] → ∃ digit, (StreamText.mk digit texts).frontBits <+: Bits.ofBytes taken
  goes_on : (∀ call ∈ calls, call.goesOn = true) → d.Reading texts taken
  finished : (¬ ∀ call ∈ calls, call.goesOn = true) → d.state.phase = .ended
  ended : ∀ front last, calls = front ++ [last] → (∀ call ∈ front, call.goesOn = true) →
    last.result = .ok .endOfStream → ∃ digit, (StreamText.mk digit texts).frontBits ++
      Bits.ofNat 48 Format.endMark ++ Bits.ofNat 32 (dataChecksum (given calls)).toNat <+:
        Bits.ofBytes taken

variable {calls : List Call} {call : Call} {texts : List BlockText} {taken used : List UInt8}

theorem dataChecksum_eq {blocks : List (Array UInt8)}
    (hblocks : blocks = texts.map fun b => b.data.toArray)
    (hstored : ∀ b ∈ texts, b.stored = Crc.ofBytes b.data) :
    dataChecksum blocks = Crc.foldAll (texts.map (·.stored)) := by
  rw [dataChecksum, hblocks, List.map_map]
  congr 1
  exact List.map_congr_left fun b hb => by simp [hstored b hb]

/-- As long as the stream goes on, what has been shown is what has been read. -/
theorem Reading.shown (h : d.Reading texts taken) (hgo : ∀ call ∈ calls, call.goesOn = true)
    (hgiven : given calls = texts.map fun b => b.data.toArray) : d.Shown calls texts taken := by
  obtain ⟨hstored, hcrc, hfront⟩ := h.front
  refine ⟨hgiven, hstored, ?_, hfront, fun _ => h, fun hnot => absurd hgo hnot, ?_⟩
  · rw [hcrc, dataChecksum_eq hgiven hstored]
  · rintro front last rfl - hend
    have hlast := hgo last (List.mem_append_right _ (List.mem_singleton_self _))
    simp [Call.goesOn, hend] at hlast

theorem reading_start_shown : start.Shown [] [] [] :=
  reading_start.shown (fun call hcall => by cases hcall) rfl

/-- A call that ends the stream, or that is made behind its end, gives no block. -/
theorem Shown.of_ended (h : d.Shown calls texts taken) (hgo : call.goesOn = false)
    (hphase : call.next.state.phase = .ended)
    (hcrc : call.next.state.streamCrc = d.state.streamCrc)
    (hended : (∀ call ∈ calls, call.goesOn = true) → call.result = .ok .endOfStream →
      ∃ digit, (StreamText.mk digit texts).frontBits ++ Bits.ofNat 48 Format.endMark ++
        Bits.ofNat 32 (dataChecksum (given calls)).toNat <+: Bits.ofBytes (taken ++ used)) :
    call.next.Shown (calls ++ [call]) texts (taken ++ used) := by
  have hnone : call.block? = none := by
    unfold Call.goesOn at hgo
    unfold Call.block?
    split <;> simp_all
  have hgiven : given (calls ++ [call]) = given calls := by
    rw [given_append, given, given, List.filterMap_cons_none hnone, List.filterMap_nil,
      List.append_nil]
  have hnot : ¬ ∀ other ∈ calls ++ [call], other.goesOn = true := by
    intro hall
    have := hall call (List.mem_append_right _ (List.mem_singleton_self _))
    rw [hgo] at this
    cases this
  refine ⟨hgiven.trans h.given_eq, h.stored_eq, ?_, fun hne => ?_, fun hall => absurd hall hnot,
    fun _ => hphase, ?_⟩
  · rw [hgiven, hcrc]
    exact h.streamCrc_eq
  · obtain ⟨digit, hprefix⟩ := h.front hne
    rw [Bits.ofBytes_append]
    exact ⟨digit, hprefix.trans (List.prefix_append _ _)⟩
  · intro front last hcalls hfront hend
    obtain ⟨rfl, hlast⟩ := List.append_inj' hcalls rfl
    obtain rfl : call = last := by simpa using hlast
    rw [hgiven]
    exact hended hfront hend

/-- A call keeps what the calls before it have shown. -/
theorem Shown.decompress (h : d.Shown calls texts taken) (chunk : List UInt8) :
    ∃ used new, chunk = used ++ (d.decompress chunk).rest ∧
      (d.decompress chunk).next.Shown (calls ++ [d.decompress chunk]) (texts ++ new)
        (taken ++ used) := by
  by_cases hgo : ∀ call ∈ calls, call.goesOn = true
  · obtain ⟨used, hused, htold⟩ := (h.goes_on hgo).decompress chunk
    generalize d.decompress chunk = call at hused htold ⊢
    have hall (hcall : call.goesOn = true) : ∀ other ∈ calls ++ [call], other.goesOn = true := by
      intro other hother
      rcases List.mem_append.1 hother with hother | hother
      · exact hgo other hother
      · rwa [List.mem_singleton.1 hother]
    obtain ⟨result, rest, reserved, next⟩ := call
    match result with
    | .ok .suspended =>
      refine ⟨used, [], hused, ?_⟩
      rw [List.append_nil]
      refine Reading.shown htold (hall rfl) ?_
      rw [given_append, h.given_eq]
      exact List.append_nil _
    | .ok (.block data) =>
      obtain ⟨b, hdata, hreading⟩ := htold
      refine ⟨used, [b], hused, Reading.shown hreading (hall rfl) ?_⟩
      rw [given_append, h.given_eq, List.map_append, List.map_singleton, ← hdata,
        Array.toArray_toList]
      rfl
    | .ok .endOfStream =>
      obtain ⟨hphase, t, ht, rfl, hchecksum, hbits⟩ := htold
      refine ⟨used, [], hused, ?_⟩
      rw [List.append_nil]
      refine h.of_ended rfl hphase ?_ fun _ _ => ⟨t.digit, ?_⟩
      · rw [h.streamCrc_eq, dataChecksum_eq h.given_eq h.stored_eq, ← hchecksum]
        rfl
      · rw [dataChecksum_eq h.given_eq h.stored_eq, hbits]
        exact List.prefix_append _ _
    | .error fault =>
      obtain ⟨hphase, hcrc⟩ := htold
      refine ⟨used, [], hused, ?_⟩
      rw [List.append_nil]
      refine h.of_ended rfl hphase ?_ fun _ hend => by cases hend
      rw [h.streamCrc_eq, dataChecksum_eq h.given_eq h.stored_eq, hcrc]
  · -- behind the end of the stream, or a fault, a call gives no block
    have hphase := h.finished hgo
    rw [decompress_of_ended hphase]
    refine ⟨[], [], rfl, ?_⟩
    rw [List.append_nil]
    exact h.of_ended rfl hphase rfl fun hall => absurd hall hgo

/-- The calls on any chunks show of the blocks that they give what was read of them. -/
theorem exists_shown (chunks : List (List UInt8)) : ∃ texts,
    (start.after (start.calls chunks)).Shown (start.calls chunks) texts (start.taken chunks) := by
  induction chunks using List.reverseRecOn with
  | nil => exact ⟨[], reading_start_shown⟩
  | append_singleton chunks chunk ih =>
    obtain ⟨texts, h⟩ := ih
    obtain ⟨used, new, hused, hnext⟩ := h.decompress chunk
    refine ⟨texts ++ new, ?_⟩
    rw [calls_concat, taken_concat hused, after_append]
    exact hnext

/-- After any calls: each block that was given has the checksum that was read in its header, the
checksum of the stream is the fold of those of the blocks, and if the last call is the first to
report the end of the stream, and none before it failed, then this checksum was read behind the mark
of the end. -/
theorem integrity (chunks : List (List UInt8)) : ∃ texts : List BlockText,
    given (start.calls chunks) = (texts.map fun b => b.data.toArray) ∧
      (∀ b ∈ texts, b.stored = Crc.ofBytes b.data) ∧
      (texts ≠ [] → ∃ digit,
        (StreamText.mk digit texts).frontBits <+: Bits.ofBytes (start.taken chunks)) ∧
      (start.after (start.calls chunks)).state.streamCrc =
        dataChecksum (given (start.calls chunks)) ∧
      ∀ front last, start.calls chunks = front ++ [last] →
        (∀ call ∈ front, call.goesOn = true) → last.result = .ok .endOfStream →
          ∃ digit, (StreamText.mk digit texts).frontBits ++ Bits.ofNat 48 Format.endMark ++
            Bits.ofNat 32 (dataChecksum (given (start.calls chunks))).toNat <+:
              Bits.ofBytes (start.taken chunks) := by
  obtain ⟨texts, h⟩ := exists_shown chunks
  exact ⟨texts, h.given_eq, h.stored_eq, h.front, h.streamCrc_eq, h.ended⟩

end Decompressor

end Bunzip.Stream
