import Bunzip.Proofs.Huffman.Lookahead
import Bunzip.Stream.Decompressor

/-!
# Look-ahead of the fields

A field is read when `need` bits are there, and these bits decide it (`Field.decided_read`), as long
as the block keeps the limits that were checked before: this is `State.Sound`, which every step
keeps. In the same way the bits of a longest search decide one step of a payload (`twin_step`).
-/

namespace Bunzip

/-- Every value that the scan gives has the property. -/
def Scan.Gives {α : Type} (P : α → Prop) (scan : Scan α) : Prop :=
  ∀ r value next, scan r = .ok value next → P value

namespace Scan

variable {α β : Type} {P : β → Prop}

theorem gives_pure {value : β} (h : P value) : Gives P (pure value : Scan β) := by
  intro r v next hrun
  cases hrun
  exact h

theorem gives_throw (fault : Fault) : Gives P (throw fault : Scan β) := by
  intro r v next hrun
  cases hrun

theorem gives_fail (error : StreamError) : Gives P (fail error : Scan β) := gives_throw _

theorem Gives.bind {Q : α → Prop} {scan : Scan α} {rest : α → Scan β} (hscan : Gives Q scan)
    (h : ∀ value, Q value → Gives P (rest value)) : Gives P (scan >>= rest) := by
  intro r v next hrun
  change EStateM.bind scan rest r = _ at hrun
  rw [EStateM.bind] at hrun
  split at hrun
  · rename_i value mid hmid
    exact h value (hscan r value mid hmid) _ _ _ hrun
  · cases hrun

theorem gives_bind {scan : Scan α} {rest : α → Scan β} (h : ∀ value, Gives P (rest value)) :
    Gives P (scan >>= rest) :=
  have hscan : Gives (fun _ => True) scan := fun _ _ _ _ => trivial
  hscan.bind fun value _ => h value

theorem gives_ite {p : Prop} [Decidable p] {yes no : Scan β} (hyes : p → Gives P yes)
    (hno : ¬ p → Gives P no) : Gives P (if p then yes else no) := by
  split
  · exact hyes ‹_›
  · exact hno ‹_›

theorem gives_ofExcept {result : Except Fault β} (h : ∀ value, result = .ok value → P value) :
    Gives P (ofExcept result) := by
  cases result with
  | ok value => exact gives_pure (h value rfl)
  | error fault => exact gives_throw fault

end Scan

namespace Stream

open Scan Huffman

/-- The limits that the block being read was checked for. -/
def Phase.Sound : Phase → Prop
  | .field (.selectorCount draft) => draft.setup.Bounded
  | .field (.selector draft _) => draft.setup.Bounded
  | .field (.codeLength draft _) => draft.setup.Bounded
  | .payload p => p.decoder.Searchable
  | _ => True

def State.Sound (s : State) : Prop := s.phase.Sound

theorem State.sound_start : State.start.Sound := trivial

namespace Field

/-! ## The needed bits decide a field -/

theorem decided_words (count : Nat) : Decided (16 * count) (words count) := by
  induction count with
  | zero => exact decided_pure 0 _
  | succ count ih =>
    exact ((decided_number 16).bind fun _ => ih.first fun _ => decided_pure 0 _).mono (by omega)

theorem decided_unary (tables room : Nat) : Decided room (unary tables room) := by
  induction room with
  | zero => exact decided_fail 0 _
  | succ room ih =>
    exact (decided_bit.bind fun _ => decided_ite ih (decided_pure room _)).mono (by omega)

theorem decided_readStreamHeader : Decided 32 readStreamHeader :=
  (decided_number 24).bind fun _ => decided_ite (decided_fail 8 _) <|
    (decided_number 8).first fun _ => decided_ite (decided_fail 0 _) (decided_pure 0 _)

theorem decided_readBlockHeader (streamCrc : UInt32) : Decided 80 (readBlockHeader streamCrc) :=
  (decided_number 48).bind fun _ => decided_ite
    (decided_checksum.first fun _ => decided_ite (decided_fail 0 _) (decided_pure 0 _)) <|
    decided_ite (decided_checksum.first fun _ => decided_pure 0 _) (decided_fail 32 _)

theorem decided_readBlockParams (stored : UInt32) : Decided 25 (readBlockParams stored) :=
  decided_bit.bind fun _ => (decided_number 24).first fun _ => decided_pure 0 _

theorem decided_readUsedGroups (head : Block.Head) : Decided 16 (readUsedGroups head) :=
  (decided_number 16).first fun _ => decided_pure 0 _

theorem decided_readUsedBitmaps (head : Block.Head) (groups : UInt16) :
    Decided (16 * (UsedMap.flagged groups).length + 3) (readUsedBitmaps head groups) :=
  (decided_words _).bind fun _ => (decided_number 3).first fun _ =>
    decided_ite (decided_fail 0 _) (decided_ite (decided_fail 0 _) (decided_pure 0 _))

theorem decided_readSelectorCount (draft : Draft) : Decided 15 (readSelectorCount draft) :=
  (decided_number 15).first fun _ => decided_ite (decided_fail 0 _) (decided_pure 0 _)

theorem setSelector_ne_shortRead {setup : Setup} {index position : Nat} {fault : Fault}
    (h : setup.setSelector index position = .error fault) : fault ≠ .defect .shortRead := by
  unfold Setup.setSelector at h
  simp only at h
  repeat' split at h
  all_goals cases h
  all_goals simp

theorem setLength_ne_shortRead {setup : Setup} {table symbol : Nat} {length : Int32} {fault : Fault}
    (h : setup.setLength table symbol length = .error fault) : fault ≠ .defect .shortRead := by
  unfold Setup.setLength at h
  simp only at h
  repeat' split at h
  all_goals cases h
  all_goals simp

theorem decoder_ne_shortRead {setup : Setup} {fault : Fault} (h : setup.decoder = .error fault) :
    fault ≠ .defect .shortRead := by
  unfold Setup.decoder at h
  split at h
  · cases h
  · cases h; simp

theorem afterLength_ne_shortRead {blockSize : Nat} {draft : Draft} {table symbol : Nat}
    {length : Int32} {fault : Fault}
    (h : afterLength blockSize draft table symbol length = .error fault) :
    fault ≠ .defect .shortRead := by
  unfold afterLength at h
  split at h
  · cases h
  split at h
  · cases h
  cases hdecoder : draft.setup.decoder with
  | ok decoder => rw [hdecoder] at h; cases h
  | error => rw [hdecoder] at h; cases h; exact decoder_ne_shortRead hdecoder

theorem storeLength_ne_shortRead {blockSize : Nat} {draft : Draft} {table symbol : Nat}
    {length : Int32} {fault : Fault}
    (h : storeLength blockSize draft table symbol length = .error fault) :
    fault ≠ .defect .shortRead := by
  obtain ⟨head, used, setup⟩ := draft
  unfold storeLength at h
  cases hset : setup.setLength table symbol length with
  | ok after => simp only [hset] at h; exact afterLength_ne_shortRead h
  | error => simp only [hset] at h; cases h; exact setLength_ne_shortRead hset

theorem decided_readSelector {draft : Draft} (h : draft.setup.Bounded) (index : Nat) :
    Decided 6 (readSelector draft index) := by
  obtain ⟨head, used, setup⟩ := draft
  refine (((decided_unary setup.tables setup.tables).mono h.tables_le).first fun position => ?_)
  exact (decided_ofExcept fun _ => setSelector_ne_shortRead).first fun _ =>
    decided_ite (decided_pure 0 _) (decided_pure 0 _)

theorem decided_readCodeLength (blockSize : Nat) (draft : Draft) (cursor : LengthCursor) :
    Decided (Field.codeLength draft cursor).need (readCodeLength blockSize draft cursor) := by
  obtain ⟨table, running⟩ := cursor
  unfold readCodeLength
  match running with
  | none => exact (decided_number 5).first fun _ => decided_pure 0 _
  | some ⟨length, symbol, true⟩ => exact decided_bit.first fun _ => decided_pure 0 _
  | some ⟨length, symbol, false⟩ =>
    exact decided_bit.first fun _ =>
      decided_ite (decided_pure 0 _) (decided_ofExcept fun _ => storeLength_ne_shortRead)

/-- No field is read in part, and none asks for more than its needed bits. -/
theorem decided_read (blockSize : Nat) (streamCrc : UInt32) {field : Field}
    (h : (Phase.field field).Sound) : Decided field.need (field.read blockSize streamCrc) := by
  have wrap {n : Nat} {scan : Scan Phase} (hscan : Decided n scan) :
      Decided n (do return ⟨← scan, blockSize, streamCrc⟩ : Scan State) :=
    hscan.first fun _ => decided_pure 0 _
  cases field with
  | streamHeader => exact decided_readStreamHeader
  | blockHeader => exact wrap (decided_readBlockHeader streamCrc)
  | blockParams stored => exact wrap (decided_readBlockParams stored)
  | usedGroups head => exact wrap (decided_readUsedGroups head)
  | usedBitmaps head groups => exact wrap (decided_readUsedBitmaps head groups)
  | selectorCount draft => exact wrap (decided_readSelectorCount draft)
  | selector draft index => exact wrap (decided_readSelector h index)
  | codeLength draft cursor => exact wrap (decided_readCodeLength blockSize draft cursor)

/-! ## The limits are kept -/

theorem gives_readUsedBitmaps (head : Block.Head) (groups : UInt16) :
    Gives Phase.Sound (readUsedBitmaps head groups) := by
  refine gives_bind fun bitmaps => gives_bind fun tables => gives_ite (fun _ => gives_fail _) ?_
  intro htables
  refine gives_ite (fun _ => gives_fail _) fun _ => gives_pure ?_
  exact Setup.bounded_start (by omega)

theorem gives_readSelector {draft : Draft} (h : draft.setup.Bounded) (index : Nat) :
    Gives Phase.Sound (readSelector draft index) := by
  obtain ⟨head, used, setup⟩ := draft
  refine gives_bind fun position => ?_
  have hset : Gives Setup.Bounded (Scan.ofExcept (setup.setSelector index position)) :=
    gives_ofExcept fun _ => h.setSelector
  refine hset.bind fun after hafter => ?_
  exact gives_ite (fun _ => gives_pure hafter) fun _ => gives_pure hafter

theorem sound_afterLength {blockSize : Nat} {draft : Draft} {table symbol : Nat} {length : Int32}
    {phase : Phase} (h : draft.setup.Bounded)
    (hphase : afterLength blockSize draft table symbol length = .ok phase) : phase.Sound := by
  unfold afterLength at hphase
  split at hphase
  · cases hphase; exact h
  split at hphase
  · cases hphase; exact h
  cases hdecoder : draft.setup.decoder with
  | ok decoder =>
    rw [hdecoder] at hphase
    cases hphase
    exact Setup.searchable_decoder h hdecoder
  | error fault => rw [hdecoder] at hphase; cases hphase

theorem sound_storeLength {blockSize : Nat} {draft : Draft} {table symbol : Nat} {length : Int32}
    {phase : Phase} (h : draft.setup.Bounded)
    (hphase : storeLength blockSize draft table symbol length = .ok phase) : phase.Sound := by
  obtain ⟨head, used, setup⟩ := draft
  unfold storeLength at hphase
  cases hset : setup.setLength table symbol length with
  | ok after =>
    have hafter : (Draft.mk head used after).setup.Bounded := h.setLength hset
    simp only [hset] at hphase
    exact sound_afterLength hafter hphase
  | error fault => simp only [hset] at hphase; cases hphase

theorem gives_readCodeLength {blockSize : Nat} {draft : Draft} (h : draft.setup.Bounded)
    (cursor : LengthCursor) : Gives Phase.Sound (readCodeLength blockSize draft cursor) := by
  unfold readCodeLength
  split
  · exact gives_bind fun _ => gives_pure h
  · exact gives_bind fun _ => gives_pure h
  · refine gives_bind fun _ => gives_ite (fun _ => gives_pure h) fun _ => ?_
    exact gives_ofExcept fun _ => sound_storeLength h

theorem gives_phase {P : Phase → Prop} {scan : Scan Phase} (blockSize : Nat) (streamCrc : UInt32)
    (hscan : Gives P scan) : Gives (fun after => P after.phase)
      (do return ⟨← scan, blockSize, streamCrc⟩ : Scan State) :=
  hscan.bind fun _ hphase => gives_pure hphase

theorem gives_read (blockSize : Nat) (streamCrc : UInt32) {field : Field}
    (h : (Phase.field field).Sound) : Gives State.Sound (field.read blockSize streamCrc) := by
  have wrap {scan : Scan Phase} (hscan : Gives Phase.Sound scan) :=
    gives_phase blockSize streamCrc hscan
  cases field with
  | streamHeader =>
    refine gives_bind fun _ => gives_ite (fun _ => gives_fail _) fun _ => gives_bind fun _ => ?_
    exact gives_ite (fun _ => gives_fail _) fun _ => gives_pure trivial
  | blockHeader =>
    refine wrap (gives_bind fun _ => gives_ite (fun _ => gives_bind fun _ => ?_) fun _ => ?_)
    · exact gives_ite (fun _ => gives_fail _) fun _ => gives_pure trivial
    · exact gives_ite (fun _ => gives_bind fun _ => gives_pure trivial) fun _ => gives_fail _
  | blockParams stored => exact wrap (gives_bind fun _ => gives_bind fun _ => gives_pure trivial)
  | usedGroups head => exact wrap (gives_bind fun _ => gives_pure trivial)
  | usedBitmaps head groups => exact wrap (gives_readUsedBitmaps head groups)
  | selectorCount draft =>
    refine wrap (gives_bind fun count => gives_ite (fun _ => gives_fail _) fun _ => gives_pure ?_)
    exact Setup.Bounded.setSelectorCount h count
  | selector draft index => exact wrap (gives_readSelector h index)
  | codeLength draft cursor => exact wrap (gives_readCodeLength h cursor)

end Field

end Stream

end Bunzip
