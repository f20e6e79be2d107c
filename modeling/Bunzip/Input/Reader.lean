import Bunzip.Input.Feed

/-!
# Reading decoded data

A `Reader` serves the data of a feed's blocks in pieces of any size. A block is served to its end
before the next one is decoded, so its data comes before any failure that lies behind it.
-/

namespace Bunzip.Input

/-- The number of bytes requested at a time unless another number is given. -/
def defaultChunkSize : Nat := 65536

/-- A feed and the block that is being served. -/
structure Reader where
  feed : Feed
  block : Array UInt8
  /-- The number of bytes of the block that were served. -/
  served : Nat

namespace Reader

def start (source : Source) (chunkSize : Nat) : Reader := ⟨Feed.start source chunkSize, #[], 0⟩

/-- Whether the stream has ended, by its end or by a fault. -/
def isFinished (r : Reader) : Bool := r.feed.decompressor.isFinished

/-- Serves at most `size` bytes of the block. -/
def serve (r : Reader) (size : Nat) : Array UInt8 × Reader :=
  let bytes := r.block.extract r.served (r.served + size)
  (bytes, { r with served := r.served + bytes.size })

/-- At most `size` bytes of the data, and none only at its end or if none are asked for. -/
def read (r : Reader) (size : Nat) : Except ReadFailure (Array UInt8) × Reader :=
  if size = 0 then (.ok #[], r)
  else if r.served < r.block.size then
    let (bytes, r) := r.serve size
    (.ok bytes, r)
  else
    match r with
    | ⟨feed, block, served⟩ =>
      match feed.nextBlock with
      | (.error failure, feed) => (.error failure, ⟨feed, block, served⟩)
      | (.ok none, feed) => (.ok #[], ⟨feed, block, served⟩)
      | (.ok (some data), feed) =>
        let (bytes, r) := serve ⟨feed, data, 0⟩ size
        (.ok bytes, r)

/-- Changes the source beneath the reader. -/
def mapSource (r : Reader) (change : Source → Source) : Reader :=
  { r with feed := { r.feed with source := change r.feed.source } }

/-! ## Progress -/

/-- A read that gives bytes takes them from the block, or from a feed that has less to come. -/
theorem read_decreases {r after : Reader} {size : Nat} {bytes : Array UInt8}
    (h : r.read size = (.ok bytes, after)) (hbytes : bytes.size ≠ 0) :
    after.feed.toCome < r.feed.toCome ∨ after.feed.toCome = r.feed.toCome ∧
      (after.feed.decompressor.weight after.feed.unread <
          r.feed.decompressor.weight r.feed.unread ∨
        after.feed.decompressor.weight after.feed.unread =
            r.feed.decompressor.weight r.feed.unread ∧
          after.block.size - after.served < r.block.size - r.served) := by
  unfold read at h
  split at h
  · cases h; simp at hbytes
  split at h
  · simp only [serve, Prod.mk.injEq, Except.ok.injEq] at h
    obtain ⟨rfl, rfl⟩ := h
    exact .inr ⟨rfl, .inr ⟨rfl, by simp only; omega⟩⟩
  · obtain ⟨feed, block, served⟩ := r
    simp only at h ⊢
    split at h
    · cases h
    · cases h; simp at hbytes
    · rename_i hnext
      simp only [serve, Prod.mk.injEq, Except.ok.injEq] at h
      obtain ⟨_, rfl⟩ := h
      rcases Feed.nextBlock_decreases hnext with hlt | ⟨heq, hlt⟩
      · exact .inl hlt
      · exact .inr ⟨heq, .inl hlt⟩

/-- Reads pieces of `size` bytes until there are no more or a read fails; gives the bytes read,
after those `given`, and the failure. -/
def readAll (size : Nat) (r : Reader) (given : Array UInt8) :
    Array UInt8 × Option ReadFailure × Reader :=
  match _h : r.read size with
  | (.error failure, r) => (given, some failure, r)
  | (.ok bytes, after) =>
    if _hbytes : bytes.size = 0 then (given, none, after)
    else readAll size after (given ++ bytes)
termination_by (r.feed.toCome, r.feed.decompressor.weight r.feed.unread, r.block.size - r.served)
decreasing_by
  rcases read_decreases _h _hbytes with hlt | ⟨heq, hlt | ⟨heq', hlt⟩⟩
  · exact .left _ _ hlt
  · rw [heq]; exact .right _ (.left _ _ hlt)
  · rw [heq, heq']; exact .right _ (.right _ hlt)

end Reader

end Bunzip.Input
