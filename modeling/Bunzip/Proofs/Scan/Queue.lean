import Bunzip.Proofs.Scan.Word
import Bunzip.Proofs.Scan.WordReader

/-!
# Readers are queues of bits

A `Machine` is a kind of reader as its caller sees it: chunks are bound, values are read as long as
the bits for them are there, bytes are begun ahead, and the reader is suspended, or released with
the rest of its chunk in front of the next one. Whatever is done (`Machine.acts`), the values that
are read write the bits of the data in order, and no bit is lost: what was read and what is unread
make up the data (`BitReader.data_of_acts`). A reader with a word gives what a reader with a list of
bits gives, action by action (`WordReader.acts_view`).
-/

namespace Bunzip

open Scan

/-- A kind of reader, by what can be asked of it. -/
structure Machine (Kept Reader : Type) where
  empty : Kept
  bind : Kept → List UInt8 → Reader
  hasBits : Reader → Nat → Bool
  number : Nat → Reader → Option (UInt32 × Reader)
  bit : Reader → Option (Bool × Reader)
  checksum : Reader → Option (UInt32 × Reader)
  refill : Reader → Reader
  /-- The part of the chunk that was not begun. -/
  unused : Reader → List UInt8
  release : Reader → Kept
  suspend : Reader → Kept

/-- The outcome of a scan, if it does not fail. -/
def Scan.run? {α : Type} (scan : Scan α) (r : BitReader) : Option (α × BitReader) :=
  match scan r with
  | .ok value next => some (value, next)
  | .error _ _ => none

/-- The reader with a list of bits. -/
def BitReader.machine : Machine BitState BitReader where
  empty := BitState.empty
  bind := BitReader.bind
  hasBits := BitReader.hasBits
  number width := Scan.run? do return UInt32.ofNat (← Scan.number width)
  bit := Scan.run? Scan.bit
  checksum := Scan.run? Scan.checksum
  refill := BitReader.refill
  unused := BitReader.chunk
  release := BitReader.release
  suspend := BitReader.suspend

/-- The reader with a word of bits. -/
def WordReader.machine : Machine WordState WordReader where
  empty := WordState.empty
  bind := WordReader.bind
  hasBits := WordReader.hasBits
  number width r := some (r.number width)
  bit r := some r.bit
  checksum r := some r.checksum
  refill := WordReader.refill
  unused := WordReader.unused
  release := WordReader.release
  suspend := WordReader.suspend

namespace Machine

/-! ## Sessions -/

/-- What a caller does. -/
inductive Action where
  /-- Binds a chunk: what the last release left of the chunk before, and then `data`. -/
  | bind (data : List UInt8)
  | number (width : Nat)
  | bit
  | checksum
  | refill
  | release
  | suspend
deriving Repr, DecidableEq, Inhabited

def Action.data : Action → List UInt8
  | .bind data => data
  | _ => []

inductive Answer where
  | number (width : Nat) (value : UInt32)
  | bit (value : Bool)
  | checksum (value : UInt32)
deriving Repr, DecidableEq, Inhabited

namespace Answer

def width : Answer → Nat
  | number width _ => width
  | bit _ => 1
  | checksum _ => 32

def value : Answer → Nat
  | number _ value => value.toNat
  | bit value => value.toNat
  | checksum value => value.toNat

def bits (answer : Answer) : List Bool := Bits.ofNat answer.width answer.value

def Fits (answer : Answer) : Prop := answer.value < 2 ^ answer.width

end Answer

/-- Between two actions: a reader is bound to a chunk, or the kept bits and what was left of the
last chunk wait for the next one. -/
inductive Stage (Kept Reader : Type) where
  | idle (kept : Kept) (left : List UInt8)
  | bound (reader : Reader)
deriving Repr, DecidableEq

variable {Kept Reader : Type} (m : Machine Kept Reader)

def start : Stage Kept Reader := .idle m.empty []

/-- What an action gives, and what it leads to; none if it is not allowed. A value of 1 to 32 bits
may be read when the bits for it are there. -/
def act : Action → Stage Kept Reader → Option (List Answer × Stage Kept Reader)
  | .bind data, .idle kept left => some ([], .bound (m.bind kept (left ++ data)))
  | .number width, .bound r =>
    if 1 ≤ width ∧ width ≤ 32 ∧ m.hasBits r width then
      (m.number width r).map fun out => ([.number width out.1], .bound out.2)
    else none
  | .bit, .bound r =>
    if m.hasBits r 1 then (m.bit r).map fun out => ([.bit out.1], .bound out.2) else none
  | .checksum, .bound r =>
    if m.hasBits r 32 then (m.checksum r).map fun out => ([.checksum out.1], .bound out.2)
    else none
  | .refill, .bound r => some ([], .bound (m.refill r))
  | .release, .bound r => some ([], .idle (m.release r) (m.unused r))
  | .suspend, .bound r => some ([], .idle (m.suspend r) [])
  | _, _ => none

/-- What actions give, one after the other. -/
def acts : List Action → Stage Kept Reader → Option (List Answer × Stage Kept Reader)
  | [], stage => some ([], stage)
  | action :: actions, stage =>
    match m.act action stage with
    | none => none
    | some (front, mid) => (acts actions mid).map (Prod.map (front ++ ·) id)

def dataOf (actions : List Action) : List UInt8 := actions.flatMap Action.data

def bitsOf (answers : List Answer) : List Bool := answers.flatMap Answer.bits

theorem acts_cons_eq_some {m : Machine Kept Reader} {action : Action} {actions : List Action}
    {stage last : Stage Kept Reader} {answers : List Answer}
    (h : m.acts (action :: actions) stage = some (answers, last)) :
    ∃ front mid back, m.act action stage = some (front, mid) ∧
      m.acts actions mid = some (back, last) ∧ answers = front ++ back := by
  rw [acts] at h
  split at h
  · cases h
  · rename_i front mid hfirst
    obtain ⟨⟨back, last'⟩, hrest, heq⟩ := Option.map_eq_some_iff.1 h
    cases heq
    exact ⟨front, mid, back, hfirst, hrest, rfl⟩

end Machine

/-! ## Lists of bits -/

namespace BitReader

open Machine

variable {r : BitReader} {n : Nat} {answers : List Answer}
variable {stage next : Stage BitState BitReader}

theorem run?_number {α : Type} (f : Nat → α) (n : Nat) (r : BitReader) :
    Scan.run? (do return f (← Scan.number n)) r = (r.take? n).map (Prod.map f id) := by
  unfold Scan.run?
  rw [show (do return f (← Scan.number n) : Scan α) r =
    EStateM.bind (Scan.number n) (fun value => pure (f value)) r from rfl, EStateM.bind, Scan.number]
  cases r.take? n <;> rfl

/-- The unread bits between two actions. -/
def unread : Stage BitState BitReader → List Bool
  | .idle kept left => kept.bits ++ Bits.ofBytes left
  | .bound r => r.bits

theorem take?_answer (h : r.hasBits n = true) :
    ∃ value next, r.take? n = some (value, next) ∧ value < 2 ^ n ∧
      r.bits = Bits.ofNat n value ++ next.bits := by
  have hle := (r.hasBits_iff n).1 h
  obtain ⟨next, htake, hbits⟩ := r.take?_eq_some n hle
  have hlength : (r.bits.take n).length = n := List.length_take_of_le hle
  refine ⟨_, next, htake, ?_, ?_⟩
  · have hlt := Bits.value_lt (r.bits.take n)
    rwa [hlength] at hlt
  · have hwrites := Bits.ofNat_value (r.bits.take n)
    rw [hlength] at hwrites
    rw [hwrites, hbits, List.take_append_drop]

/-- What is read are the next bits, if the answer keeps the number that they write. -/
theorem unread_read {α : Type} {f : Nat → α} (wrap : α → Answer) (hhas : r.hasBits n = true)
    (hwrap : ∀ value < 2 ^ n, (wrap (f value)).width = n ∧ (wrap (f value)).value = value)
    (h : (Scan.run? (do return f (← Scan.number n)) r).map
      (fun out => ([wrap out.1], Stage.bound out.2)) = some (answers, next)) :
    unread (.bound r) ++ Bits.ofBytes [] = bitsOf answers ++ unread next ∧
      ∀ answer ∈ answers, answer.Fits := by
  obtain ⟨value, after, htake, hlt, hbits⟩ := take?_answer hhas
  obtain ⟨hwidth, hvalue⟩ := hwrap value hlt
  rw [run?_number, htake] at h
  cases h
  constructor
  · rw [bitsOf, List.flatMap_singleton, Answer.bits, Bits.ofBytes_nil, List.append_nil]
    simp only [Prod.map, hwidth, hvalue]
    exact hbits
  · intro answer hanswer
    rw [List.mem_singleton.1 hanswer, Answer.Fits]
    simp only [Prod.map, hwidth, hvalue]
    exact hlt

/-- An action gives the next bits of what is unread and what comes in. -/
theorem unread_act {action : Action} (h : machine.act action stage = some (answers, next)) :
    unread stage ++ Bits.ofBytes action.data = bitsOf answers ++ unread next ∧
      ∀ answer ∈ answers, answer.Fits := by
  cases stage with
  | idle kept left =>
    cases action with
    | bind data =>
      cases h
      refine ⟨?_, fun answer hanswer => by cases hanswer⟩
      rw [unread, unread, Action.data, List.append_assoc, ← Bits.ofBytes_append]
      rfl
    | _ => cases h
  | bound r =>
    have hkeeps {bits : List Bool} (hbits : bits = r.bits) :
        unread (.bound r) ++ Bits.ofBytes [] = bitsOf [] ++ bits ∧
          ∀ answer ∈ ([] : List Answer), answer.Fits :=
      ⟨by rw [hbits, Bits.ofBytes_nil, List.append_nil]; rfl, fun answer hanswer => by cases hanswer⟩
    cases action with
    | bind => cases h
    | number width =>
      simp only [act] at h
      split at h
      · rename_i hallowed
        obtain ⟨-, hwidth, hhas⟩ := hallowed
        refine unread_read (.number width) hhas (fun value hlt => ⟨rfl, ?_⟩) h
        have hpow : 2 ^ width ≤ 2 ^ 32 := Nat.pow_le_pow_right (by decide) hwidth
        exact UInt32.toNat_ofNat_of_lt' (Nat.lt_of_lt_of_le hlt hpow)
      · cases h
    | bit =>
      simp only [act] at h
      split at h
      · rename_i hhas
        refine unread_read .bit hhas (fun value hlt => ⟨rfl, ?_⟩) h
        obtain rfl | rfl : value = 0 ∨ value = 1 := by omega
        · rfl
        · rfl
      · cases h
    | checksum =>
      simp only [act] at h
      split at h
      · rename_i hhas
        exact unread_read .checksum hhas
          (fun value hlt => ⟨rfl, UInt32.toNat_ofNat_of_lt' hlt⟩) h
      · cases h
    | refill =>
      cases h
      exact hkeeps r.bits_refill
    | release =>
      cases h
      exact hkeeps r.bits_release
    | suspend =>
      cases h
      exact hkeeps (by rw [unread, Bits.ofBytes_nil, List.append_nil]; exact r.bits_suspend)

theorem unread_acts {actions : List Action} (h : machine.acts actions stage = some (answers, next)) :
    unread stage ++ Bits.ofBytes (dataOf actions) = bitsOf answers ++ unread next ∧
      ∀ answer ∈ answers, answer.Fits := by
  induction actions generalizing stage answers with
  | nil =>
    cases h
    exact ⟨List.append_nil _, fun answer hanswer => by cases hanswer⟩
  | cons action actions ih =>
    obtain ⟨front, mid, back, hfirst, hrest, rfl⟩ := acts_cons_eq_some h
    obtain ⟨hmid, hfront⟩ := unread_act hfirst
    obtain ⟨hlast, hback⟩ := ih hrest
    refine ⟨?_, fun answer hanswer => ?_⟩
    · rw [dataOf, List.flatMap_cons, Bits.ofBytes_append, ← List.append_assoc, hmid,
        List.append_assoc, ← dataOf, hlast, bitsOf, bitsOf, bitsOf, List.flatMap_append,
        List.append_assoc]
    · exact (List.mem_append.1 hanswer).elim (hfront answer) (hback answer)

end BitReader

/-! ## Words of bits -/

namespace WordReader

open Machine

variable {r : WordReader} {n : Nat} {answers : List Answer} {action : Action}
variable {stage next : Stage WordState WordReader}

/-- A stage with its bits in a list. -/
def stageView : Stage WordState WordReader → Stage BitState BitReader
  | .idle kept left => .idle kept.view left
  | .bound r => .bound r.view

/-- The word has room for its bits, also between chunks. -/
def StageFits : Stage WordState WordReader → Prop
  | .idle kept _ => kept.count ≤ 64
  | .bound r => r.Fits

theorem run?_view {α : Type} (f : Nat → α) (h : r.Fits) (hpos : 1 ≤ n) (hn : n ≤ 32)
    (hhas : r.hasBits n = true) :
    Scan.run? (do return f (← Scan.number n)) r.view =
        some (f (r.number n).1.toNat, (r.number n).2.view) ∧ (r.number n).2.Fits := by
  obtain ⟨htake, hfits⟩ := take?_view h hpos hn hhas
  rw [BitReader.run?_number, htake]
  exact ⟨rfl, hfits⟩

theorem read_view {α : Type} (f : Nat → α) (wrap : α → Answer) {value : α} (h : r.Fits)
    (hpos : 1 ≤ n) (hn : n ≤ 32) (hhas : r.hasBits n = true)
    (hvalue : value = f (r.number n).1.toNat) :
    (Scan.run? (do return f (← Scan.number n)) r.view).map
        (fun out => ([wrap out.1], (Stage.bound out.2 : Stage BitState BitReader))) =
      some ([wrap value], stageView (.bound (r.number n).2)) ∧
    StageFits (.bound (r.number n).2) := by
  obtain ⟨hrun, hfits⟩ := run?_view f h hpos hn hhas
  rw [hrun, hvalue]
  exact ⟨rfl, hfits⟩

/-- Each action gives with a word what it gives with a list. -/
theorem act_view (h : StageFits stage) (action : Action) :
    BitReader.machine.act action (stageView stage) =
        (machine.act action stage).map (Prod.map id stageView) ∧
      ∀ answers next, machine.act action stage = some (answers, next) → StageFits next := by
  have hnone : (none : Option (List Answer × Stage BitState BitReader)) =
        (none : Option (List Answer × Stage WordState WordReader)).map (Prod.map id stageView) ∧
      ∀ answers next, (none : Option (List Answer × Stage WordState WordReader)) =
        some (answers, next) → StageFits next :=
    ⟨rfl, fun _ _ hnext => by cases hnext⟩
  have hsome {answers : List Answer} {next : Stage WordState WordReader}
      {out : Option (List Answer × Stage BitState BitReader)}
      (hout : out = some (answers, stageView next)) (hfits : StageFits next) :
      out = (some (answers, next)).map (Prod.map id stageView) ∧
        ∀ answers' next', some (answers, next) = some (answers', next') → StageFits next' :=
    ⟨hout, fun _ _ hnext => by cases hnext; exact hfits⟩
  cases stage with
  | idle kept left =>
    cases action with
    | bind data => exact hsome rfl h
    | _ => exact hnone
  | bound r =>
    have hhas (n : Nat) : BitReader.machine.hasBits r.view n = machine.hasBits r n :=
      hasBits_view r n
    cases action with
    | bind data => exact hnone
    | number width =>
      simp only [act, stageView, hhas]
      split
      · rename_i hallowed
        obtain ⟨hpos, hwidth, hbits⟩ := hallowed
        obtain ⟨hread, hfits⟩ := read_view UInt32.ofNat (.number width) h hpos hwidth
          hbits UInt32.ofNat_toNat.symm
        exact hsome hread hfits
      · exact hnone
    | bit =>
      simp only [act, stageView, hhas]
      split
      · rename_i hbits
        have hvalue : r.bit.1 = ((r.number 1).1.toNat == 1) := by
          rw [bit]
          exact Bool.eq_iff_iff.2 (by simp [← UInt32.toNat_inj])
        obtain ⟨hread, hfits⟩ := read_view (· == 1) .bit h (Nat.le_refl 1)
          (by decide) hbits hvalue
        exact hsome hread hfits
      · exact hnone
    | checksum =>
      simp only [act, stageView, hhas]
      split
      · rename_i hbits
        obtain ⟨hread, hfits⟩ := read_view UInt32.ofNat .checksum h (by decide)
          (Nat.le_refl 32) hbits UInt32.ofNat_toNat.symm
        exact hsome hread hfits
      · exact hnone
    | refill =>
      exact hsome (congrArg (fun next => some ([], Stage.bound next)) r.view_refill.symm) h.refill
    | release => exact hsome rfl h
    | suspend => exact hsome rfl h

/-- Any actions give with a word what they give with a list. -/
theorem acts_view (h : StageFits stage) (actions : List Action) :
    BitReader.machine.acts actions (stageView stage) =
        (machine.acts actions stage).map (Prod.map id stageView) ∧
      ∀ answers next, machine.acts actions stage = some (answers, next) → StageFits next := by
  induction actions generalizing stage with
  | nil => exact ⟨rfl, fun answers next hnext => by cases hnext; exact h⟩
  | cons action actions ih =>
    obtain ⟨hview, hnext⟩ := act_view h action
    rw [acts, acts, hview]
    cases hact : machine.act action stage with
    | none => exact ⟨rfl, fun answers next hnone => by cases hnone⟩
    | some out =>
      obtain ⟨front, mid⟩ := out
      obtain ⟨hrest, hfits⟩ := ih (hnext front mid hact)
      simp only [Option.map_some, Prod.map, id, hrest]
      cases hacts : machine.acts actions mid with
      | none => exact ⟨rfl, fun answers next hnone => by cases hnone⟩
      | some out =>
        obtain ⟨back, last⟩ := out
        refine ⟨rfl, fun answers next hlast => ?_⟩
        cases hlast
        exact hfits back _ hacts

theorem pending_acts {actions : List Action} (h : machine.acts actions machine.start =
      some (answers, stage)) :
    Bits.ofBytes (dataOf actions) = bitsOf answers ++ BitReader.unread (stageView stage) ∧
      (∀ answer ∈ answers, answer.Fits) ∧ StageFits stage := by
  have hstart : StageFits machine.start := Nat.zero_le 64
  obtain ⟨hview, hnext⟩ := acts_view hstart actions
  rw [h] at hview
  obtain ⟨hunread, hfits⟩ := BitReader.unread_acts hview
  exact ⟨hunread, hfits, hnext _ _ h⟩

/-- Whatever is done with a reader, as long as each value is read only if the bits for it are there:
the values write, most significant bit first, the bits of the data that were bound, from the first
one on, none of them left out, repeated or moved. As many bits can be read as the data have beyond
these, and as many are kept by `suspend`; behind `release` they are those kept and those of the rest
of the chunk. The word never has more unread bits than there is room for, and a reader with a list
of bits gives the same answers and comes to the same stage. -/
theorem reads_in_order (actions : List Action) :
    BitReader.machine.acts actions BitReader.machine.start =
        (machine.acts actions machine.start).map (Prod.map id stageView) ∧
      ∀ answers stage, machine.acts actions machine.start = some (answers, stage) →
        bitsOf answers <+: Bits.ofBytes (dataOf actions) ∧
        (∀ answer ∈ answers, answer.value < 2 ^ answer.width) ∧
        (∀ r, stage = .bound r → r.kept.count ≤ 64 ∧
          (∀ n, r.hasBits n = true ↔ (bitsOf answers).length + n ≤ 8 * (dataOf actions).length) ∧
          (bitsOf answers).length + r.suspend.pending = 8 * (dataOf actions).length ∧
          ∀ n, 1 ≤ n → n ≤ 32 → r.hasBits n = true → ∃ value next,
            machine.act (.number n) stage = some ([.number n value], .bound next)) ∧
        ∀ kept left, stage = .idle kept left →
          (bitsOf answers).length + kept.pending + 8 * left.length =
            8 * (dataOf actions).length := by
  have hstart : StageFits machine.start := Nat.zero_le 64
  refine ⟨(acts_view hstart actions).1, fun answers stage h => ?_⟩
  obtain ⟨hdata, hfits, hroom⟩ := pending_acts h
  have hlength := congrArg List.length hdata
  rw [Bits.length_ofBytes, List.length_append] at hlength
  refine ⟨⟨_, hdata.symm⟩, hfits, ?_, ?_⟩
  · rintro r rfl
    have hbits : (BitReader.unread (stageView (.bound r))).length = r.available :=
      (available_eq r).symm
    refine ⟨hroom, fun n => ?_, ?_, fun n hpos hn hhas => ?_⟩
    · rw [hasBits, decide_eq_true_eq]
      omega
    · rw [← WordState.pending_view, view_suspend, BitState.pending_eq, BitReader.bits_suspend,
        ← available_eq]
      omega
    · refine ⟨(r.number n).1, (r.number n).2, ?_⟩
      rw [act, if_pos ⟨hpos, hn, hhas⟩]
      rfl
  · rintro kept left rfl
    rw [← WordState.pending_view, BitState.pending_eq]
    rw [stageView, BitReader.unread, List.length_append, Bits.length_ofBytes] at hlength
    omega

/-- A byte that is begun ahead, and one that is handed back and comes again. -/
def session : List Action :=
  [.bind [0x42, 0x5a, 0x68], .number 3, .refill, .release, .bind [0x31], .number 20, .bit, .suspend]

theorem reads_in_order_session :
    ∃ answers kept, machine.acts session machine.start = some (answers, .idle kept []) ∧
      answers = [.number 3 0b010, .number 20 0b00010010110100110100, .bit false] ∧
      bitsOf answers <+: Bits.ofBytes [0x42, 0x5a, 0x68, 0x31] ∧ kept.pending = 8 := by
  have hacts : machine.acts session machine.start =
      some ([.number 3 0b010, .number 20 0b00010010110100110100, .bit false],
        .idle ⟨0x425a68, 0, [0x31]⟩ []) := by decide +kernel
  obtain ⟨hbits, -, -, hidle⟩ := (reads_in_order session).2 _ _ hacts
  have hkept := hidle _ _ rfl
  exact ⟨_, _, hacts, rfl, hbits,
    Nat.add_left_cancel (show 24 + WordState.pending _ = 24 + 8 from hkept)⟩

end WordReader

end Bunzip
