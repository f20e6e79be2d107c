/-!
# Sources of bytes

A `Source` is data that is delivered in pieces, as a plan says: each request is served with a
limited number of bytes or fails, and when the plan is used up every request gets as much as it has
room for. Delivering no bytes means that the source has no more. A request that was interrupted is
repeated by `receive`.
-/

namespace Bunzip.Input

/-- The kinds of failures of a source. -/
inductive FailureKind where
  /-- The request may simply be repeated. -/
  | interrupted
  /-- No data is there yet. -/
  | wouldBlock
  | isDirectory
  | other
deriving Repr, DecidableEq, Inhabited

structure SourceFailure where
  kind : FailureKind
  text : String
deriving Repr, DecidableEq, Inhabited

/-- What the plan of a source says about a request. -/
inductive Delivery where
  /-- At most this many bytes are delivered. -/
  | atMost (count : Nat)
  | failure (failure : SourceFailure)
deriving Repr, DecidableEq, Inhabited

/-- Data delivered by a plan. -/
structure Source where
  /-- The data that was not delivered. -/
  unread : List UInt8
  /-- The number of bytes delivered or passed over. -/
  position : Nat
  /-- What becomes of the next requests. -/
  plan : List Delivery
  /-- The number of requests so far. -/
  requests : Nat
deriving Repr, DecidableEq, Inhabited

namespace Source

/-- Data of which nothing was delivered. -/
def ofData (data : List UInt8) (plan : List Delivery) : Source := ⟨data, 0, plan, 0⟩

/-- Delivers the next `count` bytes, or all that are left. -/
def deliver (source : Source) (count : Nat) : List UInt8 × Source :=
  let bytes := source.unread.take count
  (bytes, { source with
    unread := source.unread.drop count
    position := source.position + bytes.length })

/-- Serves a request for at most `room` bytes. -/
def request (source : Source) (room : Nat) : Except SourceFailure (List UInt8) × Source :=
  let source := { source with requests := source.requests + 1 }
  match source.plan with
  | [] =>
    let (bytes, source) := source.deliver room
    (.ok bytes, source)
  | .atMost count :: plan =>
    let (bytes, source) := { source with plan }.deliver (min count room)
    (.ok bytes, source)
  | .failure failure :: plan => (.error failure, { source with plan })

/-- Repeats a request as long as it is interrupted. -/
def receive (source : Source) (room : Nat) : Except SourceFailure (List UInt8) × Source :=
  match _h : source.plan with
  | .failure ⟨.interrupted, _⟩ :: plan =>
    receive { source with plan, requests := source.requests + 1 } room
  | _ => source.request room
termination_by source.plan.length
decreasing_by simp [_h]

/-- Passes over bytes without delivering them. -/
def skip (source : Source) (count : Nat) : Source := (source.deliver count).2

/-! ## What is left -/

theorem unread_deliver (source : Source) (count : Nat) :
    (source.deliver count).1 ++ (source.deliver count).2.unread = source.unread :=
  List.take_append_drop count source.unread

theorem unread_receive {source after : Source} {room : Nat} {bytes : List UInt8}
    (h : source.receive room = (.ok bytes, after)) : bytes ++ after.unread = source.unread := by
  fun_induction receive source room with
  | case1 _ _ _ _ ih => exact ih h
  | case2 source =>
    unfold request at h
    simp only at h
    split at h
    · cases h; exact unread_deliver _ _
    · cases h; exact unread_deliver _ _
    · cases h

end Source

end Bunzip.Input
