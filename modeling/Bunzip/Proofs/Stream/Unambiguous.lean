import Bunzip.Proofs.Huffman.Kraft
import Bunzip.Proofs.Stream.History

/-!
# Unambiguous texts

Each field of a text says where it ends, so a bit string begins with at most one readable text
(`StreamText.Readable.unique`).
-/

namespace Bunzip

/-! ## Fields that say where they end -/

namespace Bits

variable {α : Type} {P : α → Prop} {code : α → List Bool}

/-- Bits begin with the field of at most one of the values with a property, and then it is known
what follows the field. -/
def Delimits (P : α → Prop) (code : α → List Bool) : Prop :=
  ∀ a b rest rest', P a → P b → code a ++ rest = code b ++ rest' → a = b ∧ rest = rest'

theorem delimits_ofNat (width : Nat) : Delimits (· < 2 ^ width) (ofNat width) := by
  intro m n rest rest' hm hn h
  obtain ⟨hfield, hrest⟩ :=
    List.append_inj h ((length_ofNat width m).trans (length_ofNat width n).symm)
  have hvalue := congrArg value hfield
  rw [value_ofNat, value_ofNat, Nat.mod_eq_of_lt hm, Nat.mod_eq_of_lt hn] at hvalue
  exact ⟨hvalue, hrest⟩

theorem delimits_word (width : Nat) {word : α → Nat} (hlt : ∀ a, word a < 2 ^ width)
    (hinj : ∀ a b, word a = word b → a = b) :
    Delimits (fun _ => True) fun a => ofNat width (word a) := by
  intro a b rest rest' _ _ h
  obtain ⟨hword, hrest⟩ := delimits_ofNat width _ _ _ _ (hlt a) (hlt b) h
  exact ⟨hinj a b hword, hrest⟩

/-- As many fields as one knows of, one after the other. -/
theorem Delimits.flatMap (h : Delimits P code) (count : Nat) :
    Delimits (fun as : List α => as.length = count ∧ ∀ a ∈ as, P a) fun as => as.flatMap code := by
  intro as
  induction as generalizing count with
  | nil =>
    rintro bs rest rest' ⟨hlength, -⟩ ⟨hlength', -⟩ heq
    obtain rfl := List.eq_nil_of_length_eq_zero (hlength'.trans hlength.symm)
    exact ⟨rfl, heq⟩
  | cons a as ih =>
    rintro bs rest rest' ⟨hlength, has⟩ ⟨hlength', hbs⟩ heq
    cases bs with
    | nil => cases hlength.trans hlength'.symm
    | cons b bs =>
      simp only [List.flatMap_cons, List.append_assoc] at heq
      obtain ⟨rfl, hmore⟩ := h a b _ _ (has a List.mem_cons_self) (hbs b List.mem_cons_self) heq
      obtain ⟨rfl, hrest⟩ := ih as.length bs rest rest'
        ⟨rfl, fun other hother => has other (List.mem_cons_of_mem _ hother)⟩
        ⟨Nat.succ.inj (hlength'.trans hlength.symm), fun other hother =>
          hbs other (List.mem_cons_of_mem _ hother)⟩ hmore
      exact ⟨rfl, hrest⟩

end Bits

namespace Huffman

open Canonical Bits

variable {lengthsAt : Nat → List Nat} {last index : Nat} {symbols front other : List Nat}
  {rest rest' : List Bool}

theorem delimits_codeWord (lengths : List Nat) :
    Delimits (fun symbol => ∃ word, codeWord? lengths symbol = some word) fun symbol =>
      (codeWord? lengths symbol).getD [] := by
  rintro symbol other rest rest' ⟨word, hword⟩ ⟨front, hfront⟩ h
  simp only [hword, hfront, Option.getD_some] at h
  obtain rfl := eq_of_prefix hword hfront (List.prefix_append word rest)
    (h ▸ List.prefix_append front rest')
  rw [hword] at hfront
  cases hfront
  exact ⟨rfl, List.append_cancel_left h⟩

/-- Each of the symbols has a code word. -/
def Worded (lengthsAt : Nat → List Nat) (index : Nat) (symbols : List Nat) : Prop :=
  ∀ symbol i, (symbol, i) ∈ symbols.zipIdx index →
    ∃ word, codeWord? (lengthsAt i) symbol = some word

theorem Worded.head {symbol : Nat} (h : Worded lengthsAt index (symbol :: symbols)) :
    ∃ word, codeWord? (lengthsAt index) symbol = some word :=
  h symbol index List.mem_cons_self

theorem Worded.tail {symbol : Nat} (h : Worded lengthsAt index (symbol :: symbols)) :
    Worded lengthsAt (index + 1) symbols :=
  fun other i hmem => h other i (List.mem_cons_of_mem _ hmem)

theorem words_cons (lengthsAt : Nat → List Nat) (index symbol : Nat) (symbols : List Nat) :
    words lengthsAt index (symbol :: symbols) =
      (codeWord? (lengthsAt index) symbol).getD [] ++ words lengthsAt (index + 1) symbols := rfl

/-- Symbols up to a last one are known by their code words. -/
theorem words_unique (hlast : last ∉ front) (hlast' : last ∉ other)
    (hwords : Worded lengthsAt index (front ++ [last]))
    (hwords' : Worded lengthsAt index (other ++ [last]))
    (h : words lengthsAt index (front ++ [last]) ++ rest =
      words lengthsAt index (other ++ [last]) ++ rest') :
    front = other ∧ rest = rest' := by
  induction front generalizing other index with
  | nil =>
    cases other with
    | nil => exact ⟨rfl, List.append_cancel_left h⟩
    | cons symbol other =>
      simp only [List.cons_append, List.nil_append, words_cons, List.append_assoc] at h
      obtain ⟨rfl, -⟩ := delimits_codeWord _ _ _ _ _ hwords.head hwords'.head h
      exact absurd List.mem_cons_self hlast'
  | cons symbol front ih =>
    cases other with
    | nil =>
      simp only [List.cons_append, List.nil_append, words_cons, List.append_assoc] at h
      obtain ⟨rfl, -⟩ := delimits_codeWord _ _ _ _ _ hwords.head hwords'.head h
      exact absurd List.mem_cons_self hlast
    | cons symbol' other =>
      simp only [List.cons_append, words_cons, List.append_assoc] at h
      obtain ⟨rfl, hmore⟩ := delimits_codeWord _ _ _ _ _ hwords.head hwords'.head h
      obtain ⟨rfl, hrest⟩ := ih (fun hmem => hlast (List.mem_cons_of_mem _ hmem))
        (fun hmem => hlast' (List.mem_cons_of_mem _ hmem)) hwords.tail hwords'.tail hmore
      exact ⟨rfl, hrest⟩

end Huffman

namespace Stream

open Huffman Block Bits

theorem Field.delimits_unaryBits : Delimits (fun _ => True) Field.unaryBits := by
  intro m
  induction m with
  | zero =>
    intro n rest rest' _ _ h
    cases n with
    | zero => exact ⟨rfl, (List.cons.inj h).2⟩
    | succ n => cases h
  | succ m ih =>
    intro n rest rest' _ _ h
    cases n with
    | zero => cases h
    | succ n =>
      obtain ⟨rfl, hrest⟩ := ih n rest rest' trivial trivial (List.cons.inj h).2
      exact ⟨rfl, hrest⟩

namespace LengthText

theorem delimits_stepBits : Delimits (fun _ => True) stepBits := by
  intro steps
  induction steps with
  | nil =>
    intro other rest rest' _ _ h
    cases other with
    | nil => exact ⟨rfl, (List.cons.inj h).2⟩
    | cons down other => cases h
  | cons down steps ih =>
    intro other rest rest' _ _ h
    cases other with
    | nil => cases h
    | cons down' other =>
      obtain ⟨rfl, hmore⟩ := List.cons.inj (List.cons.inj h).2
      obtain ⟨rfl, hrest⟩ := ih other rest rest' trivial trivial hmore
      exact ⟨rfl, hrest⟩

theorem delimits_bits (alphabet : Nat) :
    Delimits (fun t => t.start < 32 ∧ t.steps.length = alphabet) LengthText.bits := by
  rintro ⟨start, steps⟩ ⟨start', steps'⟩ rest rest' ⟨hstart, hsteps⟩ ⟨hstart', hsteps'⟩ h
  simp only [bits, List.append_assoc] at h
  obtain ⟨rfl, hmore⟩ := delimits_ofNat 5 _ _ _ _ hstart hstart' h
  obtain ⟨rfl, hrest⟩ := delimits_stepBits.flatMap alphabet _ _ _ _
    ⟨hsteps, fun _ _ => trivial⟩ ⟨hsteps', fun _ _ => trivial⟩ hmore
  exact ⟨rfl, hrest⟩

end LengthText

/-! ## Blocks -/

namespace BlockText

variable {b c : BlockText} {blockSize : Nat}

theorem Valid.worded (h : b.Valid blockSize) : Worded b.lengthsAt 0 b.symbols := by
  intro symbol index hmem
  obtain ⟨word, hword, -⟩ := h.resolves symbol index hmem
  exact ⟨word, hword⟩

theorem Readable.pointer_lt (h : b.Readable blockSize) (hsize : blockSize ≤ 2 ^ 24) :
    b.pointer < 2 ^ 24 :=
  Nat.lt_of_lt_of_le h.straight_valid.pointer_lt_column
    (Nat.le_trans h.straight_valid.column_le hsize)

theorem Readable.length_tables_lt (h : b.Readable blockSize) : b.tables.length < 2 ^ 3 := by
  have hle := h.straight_valid.tables_le
  rw [straight, List.length_map] at hle
  exact Nat.lt_of_le_of_lt hle (by decide)

theorem Readable.length_positions_lt (h : b.Readable blockSize) : b.positions.length < 2 ^ 15 :=
  Nat.lt_of_le_of_lt h.straight_valid.selectors_le (by decide)

/-- The fields before the payload say all but the symbols. -/
theorem Readable.headBits_unique (hb : b.Readable blockSize) (hc : c.Readable blockSize)
    (hsize : blockSize ≤ 2 ^ 24) {rest rest' : List Bool}
    (h : b.headBits ++ rest = c.headBits ++ rest') :
    c = { b with symbols := c.symbols } ∧ rest = rest' := by
  have hpointer := hb.pointer_lt hsize
  have hpointer' := hc.pointer_lt hsize
  have hcount := hb.length_tables_lt
  have hcount' := hc.length_tables_lt
  have hselectors := hb.length_positions_lt
  have hselectors' := hc.length_positions_lt
  have hbitmaps := hb.straight_valid.length_bitmaps
  have hbitmaps' := hc.straight_valid.length_bitmaps
  have htables := hb.tables_readable
  have htables' := hc.tables_readable
  clear hb hc
  obtain ⟨stored, randomised, pointer, groups, bitmaps, positions, tables, symbols⟩ := b
  obtain ⟨stored', randomised', pointer', groups', bitmaps', positions', tables', symbols'⟩ := c
  simp only [headBits, List.append_assoc] at h
  obtain ⟨rfl, hflag⟩ := delimits_word 32 UInt32.toNat_lt (fun _ _ => UInt32.toNat_inj.1) _ _ _ _
    trivial trivial (List.append_cancel_left h)
  obtain ⟨rfl, hplace⟩ := List.cons.inj hflag
  obtain ⟨rfl, hgroups⟩ := delimits_ofNat 24 _ _ _ _ hpointer hpointer' hplace
  obtain ⟨rfl, hmaps⟩ := delimits_word 16 UInt16.toNat_lt (fun _ _ => UInt16.toNat_inj.1) _ _ _ _
    trivial trivial hgroups
  obtain ⟨rfl, hsizes⟩ := (delimits_word 16 UInt16.toNat_lt fun _ _ => UInt16.toNat_inj.1).flatMap
    _ _ _ _ _ ⟨hbitmaps, fun _ _ => trivial⟩ ⟨hbitmaps', fun _ _ => trivial⟩ hmaps
  obtain ⟨hlength, hsize'⟩ := delimits_ofNat 3 _ _ _ _ hcount hcount' hsizes
  obtain ⟨hlength', hunary⟩ := delimits_ofNat 15 _ _ _ _ hselectors hselectors' hsize'
  obtain ⟨rfl, hdeltas⟩ := Field.delimits_unaryBits.flatMap _ _ _ _ _ ⟨rfl, fun _ _ => trivial⟩
    ⟨hlength'.symm, fun _ _ => trivial⟩ hunary
  obtain ⟨rfl, hrest⟩ := (LengthText.delimits_bits _).flatMap _ _ _ _ _
    ⟨rfl, fun t ht => ⟨(htables t ht).start_lt, (htables t ht).length_steps⟩⟩
    ⟨hlength.symm, fun t ht => ⟨(htables' t ht).start_lt, (htables' t ht).length_steps⟩⟩ hdeltas
  exact ⟨rfl, hrest⟩

/-- A block says where it ends. -/
theorem delimits_wordBits (hsize : blockSize ≤ 2 ^ 24) :
    Delimits (Readable blockSize) wordBits := by
  intro b c rest rest' hb hc h
  simp only [wordBits, List.append_assoc] at h
  obtain ⟨heq, hpayload⟩ := hb.headBits_unique hc hsize h
  generalize c.symbols = symbols at heq
  subst heq
  have hwords := hb.straight_valid.worded
  have hwords' := hc.straight_valid.worded
  obtain ⟨front, hends, hlast⟩ := hb.straight_valid.ends
  obtain ⟨other, hends', hlast'⟩ := hc.straight_valid.ends
  change words _ 0 _ ++ rest = words _ 0 _ ++ rest' at hpayload
  rw [hends] at hwords hpayload
  rw [hends'] at hwords' hpayload
  obtain ⟨rfl, hrest⟩ := words_unique hlast hlast' hwords hwords' hpayload
  obtain rfl : symbols = b.symbols := hends'.trans hends.symm
  exact ⟨rfl, hrest⟩

theorem mark_prefix_wordBits (b : BlockText) :
    Bits.ofNat 48 Format.blockMark <+: b.wordBits := by
  simp only [wordBits, headBits, List.append_assoc]
  exact List.prefix_append _ _

theorem not_mark_prefix_endBits (checksum : UInt32) (rest : List Bool) :
    ¬ Bits.ofNat 48 Format.blockMark <+: Decompressor.endBits checksum ++ rest := by
  intro hmark
  have hend : Bits.ofNat 48 Format.endMark <+: Decompressor.endBits checksum ++ rest :=
    (List.prefix_append _ _).trans (List.prefix_append _ _)
  have heq := (List.prefix_of_prefix_length_le hmark hend (Nat.le_refl _)).eq_of_length rfl
  exact absurd heq (by decide)

theorem wordBits_append_ne (b : BlockText) (checksum : UInt32) (rest rest' : List Bool) :
    b.wordBits ++ rest ≠ Decompressor.endBits checksum ++ rest' := fun h =>
  not_mark_prefix_endBits checksum rest'
    (h ▸ b.mark_prefix_wordBits.trans (List.prefix_append _ _))

/-- The blocks of a stream are known by their bits up to its end. -/
theorem blocks_unique (hsize : blockSize ≤ 2 ^ 24) {bs cs : List BlockText}
    {checksum checksum' : UInt32} {rest rest' : List Bool} (hbs : ∀ b ∈ bs, b.Readable blockSize)
    (hcs : ∀ c ∈ cs, c.Readable blockSize)
    (h : bs.flatMap wordBits ++ (Decompressor.endBits checksum ++ rest) =
      cs.flatMap wordBits ++ (Decompressor.endBits checksum' ++ rest')) : bs = cs := by
  induction bs generalizing cs with
  | nil =>
    cases cs with
    | nil => rfl
    | cons c cs =>
      rw [List.flatMap_cons, List.append_assoc] at h
      exact absurd h.symm (c.wordBits_append_ne _ _ _)
  | cons b bs ih =>
    cases cs with
    | nil =>
      rw [List.flatMap_cons, List.append_assoc] at h
      exact absurd h (b.wordBits_append_ne _ _ _)
    | cons c cs =>
      rw [List.flatMap_cons, List.flatMap_cons, List.append_assoc, List.append_assoc] at h
      obtain ⟨rfl, hmore⟩ := delimits_wordBits hsize _ _ _ _ (hbs b List.mem_cons_self)
        (hcs c List.mem_cons_self) h
      rw [ih (fun other hother => hbs other (List.mem_cons_of_mem _ hother))
        (fun other hother => hcs other (List.mem_cons_of_mem _ hother)) hmore]

end BlockText

/-! ## Streams -/

namespace StreamText

variable {s t : StreamText}

/-- Bits begin with one readable text only. -/
theorem Readable.unique (hs : s.Readable) (ht : t.Readable) {bits : List Bool}
    (hsfront : s.wordBits <+: bits) (htfront : t.wordBits <+: bits) : s = t := by
  obtain ⟨rest, rfl⟩ := hsfront
  obtain ⟨rest', h⟩ := htfront
  have hsize := hs.blockSize_le
  have hdigit := hs.digit_le
  have hdigit' := ht.digit_le
  simp only [wordBits_eq_front, frontBits, List.append_assoc] at h
  obtain ⟨hdigits, hblocks⟩ := delimits_ofNat 8 _ _ _ _ (by omega) (by omega)
    (List.append_cancel_left h)
  obtain ⟨digit, bs⟩ := s
  obtain ⟨digit', cs⟩ := t
  obtain rfl : digit' = digit := Nat.add_left_cancel hdigits
  obtain rfl := BlockText.blocks_unique hsize ht.blocks_readable hs.blocks_readable hblocks
  rfl

end StreamText

end Stream

end Bunzip
