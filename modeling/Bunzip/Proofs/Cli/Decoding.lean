import Bunzip.Cli.Run
import Bunzip.Proofs.Input.Faithful
import Bunzip.Proofs.Stream.Ending

/-!
# What a source is decoded to

`decodeAll` gives the bytes of the blocks of a stream and, unless the stream ends, the failure that
its last call tells (`decodeAll_ofData`). Data that `Unzips` describes are decoded without failure.
A directory gives nothing but a failure, and a chunk size that no buffer can have a defect.
-/

namespace Bunzip.Input.Reader

open Bunzip.Stream

variable {r : Reader} {bytes : List UInt8} {ending : Except Fault Event} {size : Nat}

/-- The failure behind the last byte, by what the last call gave. -/
def failureOf : Except Fault Event → Option ReadFailure
  | .error fault => some (.fault fault)
  | .ok .suspended => some .truncated
  | .ok _ => none

theorem behind_one (ending : Except Fault Event) :
    behind ending 1 = [(failureOf ending).elim (.ok #[]) .error] := by
  match ending with
  | .error _ => rfl
  | .ok .suspended => rfl
  | .ok .endOfStream => rfl
  | .ok (.block _) => rfl

/-- A read gives some of the bytes that are owed, or what is behind them. -/
theorem Owes.read_result (h : r.Owes bytes ending) (hsize : 0 < size) :
    (∃ piece rest, bytes = piece.toList ++ rest ∧ piece.size ≠ 0 ∧ (r.read size).1 = .ok piece ∧
        (r.read size).2.Owes rest ending) ∨
      bytes = [] ∧ (r.read size).1 = (failureOf ending).elim (.ok #[]) .error := by
  obtain ⟨piece, rest, hbytes, hne, hresult, hrest⟩ | ⟨hbytes, ending', -, hbehind⟩ := h.read hsize
  · exact .inl ⟨piece, rest, hbytes, mt Array.eq_empty_of_size_eq_zero hne, hresult, hrest⟩
  · exact .inr ⟨hbytes, (List.cons.inj ((behind_one ending).symm.trans (hbehind 0))).1.symm⟩

/-- Reading to the end gives what is owed, and the failure behind it. -/
theorem Owes.readAll (h : r.Owes bytes ending) (hsize : 0 < size) (given : Array UInt8) :
    (r.readAll size given).1.toList = given.toList ++ bytes ∧
      (r.readAll size given).2.1 = failureOf ending := by
  have hread := h.read_result hsize
  fun_induction Reader.readAll size r given generalizing bytes with
  | case1 r given failure after hfails =>
    rw [hfails] at hread
    obtain ⟨piece, rest, -, -, hresult, -⟩ | ⟨rfl, hresult⟩ := hread
    · cases hresult
    · refine ⟨(List.append_nil _).symm, ?_⟩
      cases hfailure : failureOf ending with
      | none => rw [hfailure] at hresult; cases hresult
      | some reason => rw [hfailure] at hresult; cases hresult; rfl
  | case2 r given piece after hgives hempty =>
    rw [hgives] at hread
    obtain ⟨piece', rest, -, hne, hresult, -⟩ | ⟨rfl, hresult⟩ := hread
    · cases hresult
      exact absurd hempty hne
    · refine ⟨(List.append_nil _).symm, ?_⟩
      cases hfailure : failureOf ending with
      | none => rfl
      | some reason => rw [hfailure] at hresult; cases hresult
  | case3 r given piece after hgives hne ih =>
    rw [hgives] at hread
    obtain ⟨piece', rest, rfl, -, hresult, hrest⟩ | ⟨rfl, hresult⟩ := hread
    · cases hresult
      obtain ⟨hbytes, hfailure⟩ := ih hrest (hrest.read_result hsize)
      refine ⟨?_, hfailure⟩
      rw [hbytes, Array.toList_append, List.append_assoc]
    · cases hfailure : failureOf ending with
      | none => rw [hfailure] at hresult; cases hresult; exact absurd rfl hne
      | some reason => rw [hfailure] at hresult; cases hresult

end Bunzip.Input.Reader

namespace Bunzip.Cli

open Bunzip.Input Bunzip.Stream

/-! ## Files -/

/-- The data begin with a stream, which writes `plain`: fed at once they lead to the end of the
stream, behind blocks with these bytes, and they begin with a readable text of these blocks. Its
blocks carry their own checksums, and its end that of all of them. -/
structure Unzips (data plain : List UInt8) : Prop where
  ends : ((Decompressor.start.drain data).map (·.result)).getLast? = some (.ok .endOfStream)
  plain_eq : plain = bytesGiven (Decompressor.start.drain data)
  text : ∃ t : StreamText, t.Readable ∧ t.wordBits <+: Bits.ofBytes data ∧
    plain = t.blocks.flatMap (·.data)

variable {data : List UInt8} {chunkSize : Nat}

theorem bytesGiven_of_results {calls : List Call} (pieces : List (Array UInt8))
    (h : calls.map (·.result) =
      (pieces.map fun piece => .ok (.block piece)) ++ [.ok .endOfStream]) :
    bytesGiven calls = pieces.flatMap Array.toList := by
  induction pieces generalizing calls with
  | nil =>
    obtain ⟨last, rfl, hlast⟩ := List.map_eq_singleton_iff.1 h
    exact bytesGiven_of_not_block (by simp [hlast])
  | cons piece pieces ih =>
    rw [List.map_cons, List.cons_append] at h
    obtain ⟨call, rest, rfl, hcall, hrest⟩ := List.map_eq_cons_iff.1 h
    have hblock : call.block? = some piece := by rw [Call.block?, hcall]
    rw [bytesGiven, given, List.filterMap_cons_some hblock, List.flatMap_cons, List.flatMap_cons]
    exact congrArg (piece.toList ++ ·) (ih hrest)

theorem unzips_of_ends
    (h : ((Decompressor.start.drain data).map (·.result)).getLast? = some (.ok .endOfStream)) :
    Unzips data (bytesGiven (Decompressor.start.drain data)) := by
  obtain ⟨t, ht, rest, hrest⟩ := (Decompressor.ends_iff_readable data).1 h
  have hresults := (ht.drain_wordBits hrest.symm).1
  have hpieces := bytesGiven_of_results (t.blocks.map (·.data.toArray))
    (hresults.trans (by rw [List.map_map]; rfl))
  refine ⟨h, rfl, t, ht, ⟨rest, hrest⟩, hpieces.trans ?_⟩
  rw [List.flatMap_map]

/-- What decoding data comes to: the bytes of their blocks, and the failure behind them. -/
theorem decodeAll_ofData (data : List UInt8) (hchunk : chunkSize ≤ maxBufferBytes) :
    ∃ last, (Decompressor.start.drain data).getLast? = some last ∧
      decodeAll chunkSize (.ofData data []) =
        ((bytesGiven (Decompressor.start.drain data)).toArray, Reader.failureOf last.result) := by
  have hlast := List.getLast?_eq_some_getLast (Decompressor.drain_ne_nil Decompressor.start data)
  generalize (Decompressor.start.drain data).getLast _ = last at hlast
  have howes := Reader.owes_start data hchunk (List.forall_mem_nil _) hlast
  obtain ⟨hbytes, hfailure⟩ := howes.readAll (show 0 < pieceSize by decide) #[]
  refine ⟨last, hlast, Prod.ext (Array.toList_inj.1 ?_) hfailure⟩
  exact hbytes

/-- Data that begin with no stream are refused with a text. -/
theorem exists_text_of_not_ends {last : Call}
    (hlast : (Decompressor.start.drain data).getLast? = some last)
    (h : last.result ≠ .ok .endOfStream) :
    ∃ failure text, Reader.failureOf last.result = some failure ∧
      Outcome.ofFailure failure = .failed text := by
  obtain ⟨hblock, -⟩ := Decompressor.live_start.result_of_drain hlast
  cases hresult : last.result with
  | ok event =>
    cases event with
    | suspended => exact ⟨.truncated, _, rfl, rfl⟩
    | block block => exact absurd hresult (hblock block)
    | endOfStream => exact absurd hresult h
  | error fault =>
    obtain ⟨error, rfl⟩ := Decompressor.live_start.error_of_drain hlast hresult
    exact ⟨.fault (.stream error), _, rfl, rfl⟩

/-- A file is decoded to the data that its stream writes, or it is refused with a text. -/
theorem decodeAll_file (data : List UInt8) (hchunk : chunkSize ≤ maxBufferBytes) :
    (∃ plain, Unzips data plain ∧
        decodeAll chunkSize (.ofData data []) = (plain.toArray, none)) ∨
      (∀ plain, ¬ Unzips data plain) ∧ ∃ given failure text,
        decodeAll chunkSize (.ofData data []) = (given, some failure) ∧
          Outcome.ofFailure failure = .failed text := by
  obtain ⟨last, hlast, hdecode⟩ := decodeAll_ofData data hchunk
  rw [hdecode]
  by_cases hends : last.result = .ok .endOfStream
  · refine .inl ⟨_, unzips_of_ends ?_, ?_⟩
    · rw [List.getLast?_map, hlast, Option.map_some, hends]
    · rw [hends]
      rfl
  · obtain ⟨failure, text, hfailure, htext⟩ := exists_text_of_not_ends hlast hends
    refine .inr ⟨fun plain hunzips => hends ?_, _, failure, text, by rw [hfailure], htext⟩
    have hresult := hunzips.ends
    rw [List.getLast?_map, hlast, Option.map_some] at hresult
    exact Option.some.inj hresult

/-! ## Other sources -/

theorem decodeAll_of_fill {source : Source} {failure : ReadFailure}
    (h : (Feed.start source chunkSize).fill.1 = .error failure) :
    decodeAll chunkSize source = (#[], some failure) := by
  generalize hfeed : (Feed.start source chunkSize).fill.2 = feed
  have hfill : (Feed.start source chunkSize).fill = (.error failure, feed) := Prod.ext h hfeed
  have hread : (Reader.start source chunkSize).read pieceSize =
      (.error failure, ⟨feed, #[], 0⟩) := by
    rw [Reader.read_of_served (by decide) (show (Reader.start source chunkSize).block.size ≤ 0 from
      Nat.le_refl 0)]
    simp only [Reader.start, Feed.nextBlock_of_empty (f := Feed.start source chunkSize) rfl rfl rfl,
      hfill]
  have hall : (Reader.start source chunkSize).readAll pieceSize #[] =
      (#[], some failure, ⟨feed, #[], 0⟩) := by
    rw [Reader.readAll]
    split
    · rename_i heq
      rw [hread] at heq
      cases heq
      rfl
    · rename_i heq
      rw [hread] at heq
      cases heq
  rw [decodeAll, hall]

theorem decodeAll_failing {failure : SourceFailure} (hkind : failure.kind ≠ .interrupted)
    (hchunk : chunkSize ≤ maxBufferBytes) :
    decodeAll chunkSize (.ofData [] [.failure failure]) = (#[], some (.source failure)) := by
  have hcapacity : checkCapacity (max chunkSize 1) = .ok () :=
    checkCapacity_eq_ok_iff.2 (Nat.max_le.2 ⟨hchunk, by decide⟩)
  have hreceive (room : Nat) : (Source.ofData [] [.failure failure]).receive room =
      (.error failure, ⟨[], 0, [], 1⟩) := by
    rw [Source.receive]
    split
    · rename_i hplan
      cases hplan
      exact absurd rfl hkind
    · rfl
  refine decodeAll_of_fill ?_
  simp only [Feed.fill, Feed.start, hcapacity, hreceive]

theorem decodeAll_of_lt (h : maxBufferBytes < chunkSize) (source : Source) :
    decodeAll chunkSize source = (#[], some (.fault (.defect .noCapacity))) := by
  have hcapacity : checkCapacity (max chunkSize 1) = .error (.defect .noCapacity) :=
    if_neg (Nat.not_le.2 (Nat.lt_of_lt_of_le h (Nat.le_max_left _ _)))
  refine decodeAll_of_fill ?_
  simp only [Feed.fill, Feed.start, hcapacity]

end Bunzip.Cli
