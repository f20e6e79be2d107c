import Bunzip.Capacity
import Bunzip.Input.Buffer
import Bunzip.Input.Source
import Bunzip.Stream.Decompressor

/-!
# Blocks from a source

A `Feed` joins a source to a decompressor. It requests a chunk when the last one is used up, and
only if the decompressor cannot go on without it. The chunk buffer is made at the first request; one
that cannot exist is a defect. A request that fails leaves the rest of the buffer filled with zeros,
which count as input of the next call.

`nextBlock` ends because each round of it takes data from the source or learns that there is none.
-/

namespace Bunzip.Input

open Bunzip.Stream

/-- Why no data could be given. -/
inductive ReadFailure where
  | source (failure : SourceFailure)
  | fault (reason : Fault)
  /-- The source ended before the stream did. -/
  | truncated
deriving Repr, DecidableEq, Inhabited

def ReadFailure.message : ReadFailure → String
  | .source failure => failure.text
  | .fault reason => reason.message
  | .truncated => "compressed file ends unexpectedly"

/-- A source and the decompressor it feeds. -/
structure Feed where
  source : Source
  decompressor : Decompressor
  /-- The size of the chunk buffer. -/
  chunkSize : Nat
  chunkSize_pos : 0 < chunkSize
  /-- What the decompressor has not used of the buffer. -/
  buffer : Buffer
  /-- The number of bytes in the buffer, used or not. -/
  filled : Nat
  /-- Whether the source has delivered no bytes. -/
  exhausted : Bool

namespace Feed

/-- Nothing was requested. A chunk has at least one byte. -/
def start (source : Source) (chunkSize : Nat) : Feed :=
  { source
    decompressor := Decompressor.start
    chunkSize := max chunkSize 1
    chunkSize_pos := by omega
    buffer := .delivered []
    filled := 0
    exhausted := false }

def unread (f : Feed) : List UInt8 := f.buffer.toList

/-- Requests a chunk; the buffer must be used up. -/
def fill (f : Feed) : Except ReadFailure Unit × Feed :=
  match checkCapacity f.chunkSize with
  | .error fault => (.error (.fault fault), f)
  | .ok () =>
    match f.source.receive f.chunkSize with
    | (.error failure, source) =>
      (.error (.source failure), { f with
        source
        buffer := .blank (f.chunkSize - f.filled)
        filled := f.chunkSize })
    | (.ok bytes, source) =>
      (.ok (), { f with
        source
        buffer := .delivered bytes
        filled := bytes.length
        exhausted := bytes.isEmpty })

/-- The bytes that the source may still deliver, and one more while it may deliver none. -/
def toCome (f : Feed) : Nat := f.source.unread.length + (!f.exhausted).toNat

theorem toCome_fill {f after : Feed} (h : f.fill = (.ok (), after)) (hopen : f.exhausted = false) :
    after.toCome < f.toCome ∧ after.decompressor = f.decompressor := by
  unfold fill at h
  split at h
  · cases h
  split at h
  · cases h
  · rename_i bytes source hreceive
    have hunread := congrArg List.length (Source.unread_receive hreceive)
    rw [List.length_append] at hunread
    simp only [Prod.mk.injEq, true_and] at h
    subst h
    simp only [toCome, hopen, Bool.not_false, Bool.toNat_true, and_true]
    cases bytes with
    | nil => simp at hunread ⊢; omega
    | cons byte bytes => simp at hunread ⊢; omega

/-- Calls the decompressor with what is in the buffer, and with further chunks while it asks for
more. -/
def work (f : Feed) : Except ReadFailure (Option (Array UInt8)) × Feed :=
  match f with
  | ⟨source, decompressor, chunkSize, positive, buffer, filled, exhausted⟩ =>
    match decompressor.decompress buffer.toList with
    | ⟨.error fault, rest, _, next⟩ =>
      (.error (.fault fault),
        ⟨source, next, chunkSize, positive, .delivered rest, filled, exhausted⟩)
    | ⟨.ok (.block data), rest, _, next⟩ =>
      (.ok (some data), ⟨source, next, chunkSize, positive, .delivered rest, filled, exhausted⟩)
    | ⟨.ok .endOfStream, rest, _, next⟩ =>
      (.ok none, ⟨source, next, chunkSize, positive, .delivered rest, filled, exhausted⟩)
    | ⟨.ok .suspended, rest, _, next⟩ =>
      if _hopen : exhausted = true then
        (.error .truncated,
          ⟨source, next, chunkSize, positive, .delivered rest, filled, exhausted⟩)
      else
        match _h : fill ⟨source, next, chunkSize, positive, .delivered rest, filled, exhausted⟩ with
        | (.error failure, f) => (.error failure, f)
        | (.ok (), f) => f.work
termination_by f.toCome
decreasing_by exact (toCome_fill _h (by simpa using _hopen)).1

/-- The data of the next block; none after the end of the stream or a fault. -/
def nextBlock (f : Feed) : Except ReadFailure (Option (Array UInt8)) × Feed :=
  if f.decompressor.isFinished then (.ok none, f)
  else if f.buffer.isEmpty && !f.exhausted then
    match f.fill with
    | (.error failure, f) => (.error failure, f)
    | (.ok (), f) => f.work
  else f.work

/-! ## Progress -/

/-- A block is taken from the buffer alone, and what is left is lighter, or data came in. -/
theorem work_decreases {f after : Feed} {data : Array UInt8}
    (h : f.work = (.ok (some data), after)) :
    after.toCome < f.toCome ∨ after.toCome = f.toCome ∧
      after.decompressor.weight after.unread < f.decompressor.weight f.unread := by
  fun_induction work f with
  | case1 => cases h
  | case2 source decompressor chunkSize positive buffer filled exhausted _ rest _ next hcall =>
    have hresult : (decompressor.decompress buffer.toList).result = .ok (.block data) := by
      rw [hcall]; cases h; rfl
    have hlt := Decompressor.weight_decompress_lt hresult
    rw [hcall] at hlt
    cases h
    exact .inr ⟨rfl, hlt⟩
  | case3 => cases h
  | case4 => cases h
  | case5 => cases h
  | case6 source decompressor chunkSize positive buffer filled exhausted rest _ next _ hopen mid
      hfill ih =>
    have := (toCome_fill hfill (by simpa using hopen)).1
    have := ih h
    simp only [toCome] at *
    omega

theorem nextBlock_decreases {f after : Feed} {data : Array UInt8}
    (h : f.nextBlock = (.ok (some data), after)) :
    after.toCome < f.toCome ∨ after.toCome = f.toCome ∧
      after.decompressor.weight after.unread < f.decompressor.weight f.unread := by
  unfold nextBlock at h
  split at h
  · cases h
  split at h
  · rename_i hempty
    split at h
    · cases h
    · rename_i mid hfill
      have := (toCome_fill hfill (by simp at hempty; exact hempty.2)).1
      have := work_decreases h
      omega
  · exact work_decreases h

end Feed

end Bunzip.Input
