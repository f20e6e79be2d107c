import Bunzip.Proofs.Stream.Begun
import Bunzip.Proofs.UsedMap
import Bunzip.UsedMap.Search
import Mathlib.Data.Nat.Bitwise

/-!
# The bytes that a search finds

A mask tells a flag (`has_eq`), so the search of a group finds its members (`toList_bytesOf`), and
after some groups it has used up a bitmap for each of them that is used (`toList_bytesFrom`). What
it finds is `decode` of the map (`bytes?_eq`). The bytes come in increasing order, and each is known
by its flag in the bitmap at the rank of its group (`names_in_order`).
-/

namespace Bunzip.UsedMap

namespace Search

/-! ## Flags by masks -/

theorem toNat_mask {i : Nat} (h : i < 16) : (mask i).toNat = 2 ^ (15 - i) := by
  revert h
  revert i
  decide

theorem has_eq (word : UInt16) {i : Nat} (h : i < 16) : has word i = flag word i := by
  have hpos : 0 < 2 ^ (15 - i) := Nat.two_pow_pos _
  rw [has, flag, Bool.eq_iff_iff, decide_eq_true_eq, UInt16.lt_iff_toNat_lt, UInt16.toNat_and,
    toNat_mask h, Nat.and_two_pow, UInt16.toNat_zero]
  cases word.toNat.testBit (15 - i) with
  | true => exact iff_of_true (by rwa [Bool.toNat_true, Nat.one_mul]) rfl
  | false => simp

/-! ## Groups -/

theorem shift_add_eq {group i : Nat} (hgroup : group < 16) (hi : i < 16) :
    (UInt8.ofNat group <<< 4) + UInt8.ofNat i = UInt8.ofNat (16 * group + i) := by
  revert hi
  revert i
  revert hgroup
  revert group
  decide

/-- The bytes of a group are found in the order of their flags. -/
theorem toList_bytesOf {group : Nat} (h : group < 16) (bitmap : UInt16) (found : Array UInt8) :
    (bytesOf group bitmap found).toList = found.toList ++ members group bitmap := by
  have hflags : ∀ flags : List Nat, (∀ i ∈ flags, i < 16) → ∀ found : Array UInt8,
      (flags.foldl (fun found i => if has bitmap i then
        found.push ((UInt8.ofNat group <<< 4) + UInt8.ofNat i) else found) found).toList =
      found.toList ++ (flags.filter (flag bitmap)).map fun i => UInt8.ofNat (16 * group + i) := by
    intro flags hlt
    induction flags with
    | nil => simp
    | cons i flags ih =>
      intro found
      have hi := hlt i List.mem_cons_self
      rw [List.foldl_cons, ih (fun j hj => hlt j (List.mem_cons_of_mem _ hj)), has_eq bitmap hi]
      by_cases hflag : flag bitmap i = true
      · rw [if_pos hflag, List.filter_cons_of_pos hflag, List.map_cons, Array.toList_push,
          shift_add_eq h hi, List.append_assoc, List.singleton_append]
      · rw [if_neg hflag, List.filter_cons_of_neg hflag]
  exact hflags (List.range 16) (fun i => List.mem_range.1) found

/-- The search goes on with the bitmap behind those that were used up, and ends where there is
none. -/
theorem toList_bytesFrom {words : List UInt16} {first : UInt16} {groups : List Nat}
    (h : ∀ group ∈ groups, group < 16) (used : Nat) (found : Array UInt8) :
    (bytesFrom words first groups used found).toList = found.toList ++
      ((groups.filter (flag first)).zip (words.drop (used + 1))).flatMap
        fun pair => members pair.1 pair.2 := by
  induction groups generalizing used found with
  | nil => simp [bytesFrom]
  | cons group groups ih =>
    have hgroup := h group List.mem_cons_self
    have hrest : ∀ other ∈ groups, other < 16 := fun other hother =>
      h other (List.mem_cons_of_mem _ hother)
    rw [bytesFrom, has_eq first hgroup]
    by_cases hused : flag first group = true
    · rw [if_pos hused, List.filter_cons_of_pos hused]
      cases hbitmap : words[used + 1]? with
      | none =>
        rw [List.drop_eq_nil_of_le (List.getElem?_eq_none_iff.1 hbitmap)]
        simp
      | some bitmap =>
        obtain ⟨hlt, hget⟩ := List.getElem?_eq_some_iff.1 hbitmap
        simp only
        rw [ih hrest, toList_bytesOf hgroup, List.drop_eq_getElem_cons hlt, hget,
          List.zip_cons_cons, List.flatMap_cons, List.append_assoc]
    · rw [if_neg hused, List.filter_cons_of_neg hused, ih hrest]

theorem bytes?_eq (first : UInt16) (bitmaps : List UInt16) :
    bytes? (first :: bitmaps) = some (decode first bitmaps).toArray := by
  have hbytes : (bytesFrom (first :: bitmaps) first (List.range 16) 0 #[]).toList = _ :=
    toList_bytesFrom (fun group => List.mem_range.1) 0 #[]
  rw [List.drop_one, List.tail_cons] at hbytes
  rw [bytes?, List.getElem?_cons_zero]
  refine congrArg some (Array.toList_inj.1 ?_)
  rw [hbytes]
  rfl

end Search

/-! ## Maps -/

/-- A map names its bytes in increasing order: those whose group is used, whose bitmap is there, at
the rank of the group behind the group word, and which have their flag in this bitmap. So the map of
a set names the set. If each used group has its bitmap, every flag of a bitmap names a byte, and a
block is read with just these bitmaps. -/
theorem names_in_order (groups : UInt16) (bitmaps : List UInt16) :
    ∃ bytes, decode? (groups :: bitmaps) = some bytes ∧
      Search.bytes? (groups :: bitmaps) = some bytes.toArray ∧ bytes.Pairwise (· < ·) ∧
      (∀ byte, byte ∈ bytes ↔ flag groups (byte.toNat / 16) = true ∧
        ∃ bitmap, (groups :: bitmaps)[1 + rank groups (byte.toNat / 16)]? = some bitmap ∧
          flag bitmap (byte.toNat % 16) = true) ∧
      (∀ used : UInt8 → Bool,
        decode? (encode used) = some (((List.range 256).map UInt8.ofNat).filter used)) ∧
      (bitmaps.length = (flagged groups).length →
        bytes.length = (bitmaps.flatMap flagged).length) ∧
      ∀ head r phase next, Stream.Field.readUsedBitmaps head groups r = .ok phase next →
        ∃ supplied draft, supplied.length = (flagged groups).length ∧
          r.bits = (supplied.flatMap fun bitmap => Bits.ofNat 16 bitmap.toNat) ++
            Bits.ofNat 3 draft.setup.tables ++ next.bits ∧
          phase = .field (.selectorCount draft) ∧ decode? (groups :: supplied) = some draft.used ∧
          draft.used.length = (supplied.flatMap flagged).length := by
  refine ⟨decode groups bitmaps, rfl, Search.bytes?_eq groups bitmaps,
    pairwise_decode groups bitmaps, fun byte => ?_, fun used => ?_, length_flatMap_zip, ?_⟩
  · rw [mem_decode_iff, Nat.add_comm, List.getElem?_cons_succ]
  · rw [encode, decode?, decode_encode]
  · intro head r phase next hread
    obtain ⟨word, hbits, supplied, tables, hlength, -, -, -, rfl, rfl⟩ :=
      Stream.Field.tells_readUsedBitmaps_draft head groups r phase next hread
    exact ⟨supplied, _, hlength, hbits, rfl, rfl, length_flatMap_zip hlength⟩

end Bunzip.UsedMap
