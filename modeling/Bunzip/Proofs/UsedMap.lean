import Bunzip.UsedMap
import Mathlib.Data.List.Flatten

/-!
# Maps of used bytes

The map that is written for a set of bytes is read as the bytes of the set in increasing order
(`decode_encode`). No map names more than 256 bytes (`length_decode_le`), and none names them out of
order (`decode_sublist`). A byte is named by its flag in the bitmap of its group, which stands at
the rank of the group among the used ones (`mem_decode_iff`).
-/

namespace Bunzip.UsedMap

variable (used : UInt8 → Bool)

/-! ## Sizes -/

theorem length_members_le (group : Nat) (bitmap : UInt16) : (members group bitmap).length ≤ 16 := by
  rw [members, List.length_map]
  exact flagged_length_le bitmap

theorem length_flatMap_le {α β : Type} {f : α → List β} {n : Nat} (l : List α)
    (h : ∀ a, (f a).length ≤ n) : (l.flatMap f).length ≤ n * l.length := by
  induction l with
  | nil => simp
  | cons a l ih =>
    rw [List.flatMap_cons, List.length_append, List.length_cons, Nat.mul_add, Nat.mul_one]
    have := h a
    omega

theorem length_decode_le (groups : UInt16) (bitmaps : List UInt16) :
    (decode groups bitmaps).length ≤ 256 := by
  have hmembers := length_flatMap_le ((flagged groups).zip bitmaps)
    fun pair => length_members_le pair.1 pair.2
  have hgroups := flagged_length_le groups
  rw [List.length_zip] at hmembers
  refine Nat.le_trans hmembers ?_
  omega

/-! ## Written maps -/

def groupBytes (group : Nat) : List UInt8 :=
  (List.range 16).map fun i => UInt8.ofNat (16 * group + i)

theorem flatMap_groupBytes :
    (List.range 16).flatMap groupBytes = (List.range 256).map UInt8.ofNat := by
  decide +kernel

theorem members_bitmap (group : Nat) :
    members group (bitmap used group) = (groupBytes group).filter used := by
  rw [members, bitmap, flagged_ofFlags, groupBytes, List.filter_map]
  rfl

theorem filter_groupBytes_eq_nil {group : Nat}
    (h : ((List.range 16).any fun i => used (UInt8.ofNat (16 * group + i))) = false) :
    (groupBytes group).filter used = [] := by
  rw [List.filter_eq_nil_iff]
  intro byte hbyte
  obtain ⟨i, hi, rfl⟩ := List.mem_map.1 hbyte
  rw [List.any_eq_false] at h
  exact h i hi

theorem flatMap_filter {α β : Type} {p : α → Bool} {f : α → List β} (l : List α)
    (h : ∀ a ∈ l, p a = false → f a = []) : (l.filter p).flatMap f = l.flatMap f := by
  induction l with
  | nil => rfl
  | cons a l ih =>
    have hrest := ih fun b hb => h b (List.mem_cons_of_mem _ hb)
    cases hp : p a with
    | true => rw [List.filter_cons_of_pos hp, List.flatMap_cons, List.flatMap_cons, hrest]
    | false =>
      rw [List.filter_cons_of_neg (by simp [hp]), List.flatMap_cons, h a List.mem_cons_self hp,
        hrest, List.nil_append]

theorem flatMap_zip_bitmap (groups : List Nat) :
    (groups.zip (groups.map (bitmap used))).flatMap (fun (group, bitmap) => members group bitmap) =
      groups.flatMap fun group => (groupBytes group).filter used := by
  induction groups with
  | nil => rfl
  | cons group groups ih =>
    rw [List.map_cons, List.zip_cons_cons, List.flatMap_cons, ih, List.flatMap_cons]
    simp only [members_bitmap]

/-- The map of a set is read as the set. -/
theorem decode_encode :
    decode (groupWord used) (bitmaps used) = ((List.range 256).map UInt8.ofNat).filter used := by
  rw [decode, bitmaps, flatMap_zip_bitmap, groupWord, flagged_ofFlags, flatMap_filter _
    fun group _ h => filter_groupBytes_eq_nil used h, ← flatMap_groupBytes, List.filter_flatMap]

/-! ## Order -/

theorem members_sublist (group : Nat) (bitmap : UInt16) :
    (members group bitmap).Sublist (groupBytes group) :=
  List.filter_sublist.map _

theorem flatMap_zip_sublist (groups : List Nat) (bitmaps : List UInt16) :
    ((groups.zip bitmaps).flatMap fun pair => members pair.1 pair.2).Sublist
      (groups.flatMap groupBytes) := by
  induction groups generalizing bitmaps with
  | nil => exact .slnil
  | cons group groups ih =>
    cases bitmaps with
    | nil => exact List.nil_sublist _
    | cons bitmap bitmaps =>
      rw [List.zip_cons_cons, List.flatMap_cons, List.flatMap_cons]
      exact (members_sublist group bitmap).append (ih bitmaps)

/-- A map names some of the bytes, in their order. -/
theorem decode_sublist (groups : UInt16) (bitmaps : List UInt16) :
    (decode groups bitmaps).Sublist ((List.range 256).map UInt8.ofNat) := by
  rw [← flatMap_groupBytes]
  exact (flatMap_zip_sublist _ bitmaps).trans (List.filter_sublist.flatMap groupBytes)

theorem pairwise_bytes : ((List.range 256).map UInt8.ofNat).Pairwise (· < ·) := by
  rw [List.pairwise_map]
  refine List.pairwise_lt_range.imp_of_mem fun hi hj hlt => ?_
  rwa [UInt8.ofNat_lt_iff_lt (List.mem_range.1 hi) (List.mem_range.1 hj)]

theorem pairwise_decode (groups : UInt16) (bitmaps : List UInt16) :
    (decode groups bitmaps).Pairwise (· < ·) :=
  pairwise_bytes.sublist (decode_sublist groups bitmaps)

/-! ## Ranks -/

/-- The number of flags set before flag `i`. -/
def rank (word : UInt16) (i : Nat) : Nat := (List.range i).countP (flag word)

/-- What is kept of a range stands at the number of those kept before it. -/
theorem getElem?_filter_range (p : Nat → Bool) (n k i : Nat) :
    ((List.range n).filter p)[k]? = some i ↔ i < n ∧ p i = true ∧ k = (List.range i).countP p := by
  induction n with
  | zero => simp
  | succ n ih =>
    rw [List.range_succ, List.filter_append, List.getElem?_append, ← List.countP_eq_length_filter]
    split
    · rename_i hlt
      rw [ih]
      constructor
      · rintro ⟨hi, hp, hk⟩
        exact ⟨Nat.lt_succ_of_lt hi, hp, hk⟩
      · rintro ⟨hi, hp, rfl⟩
        refine ⟨Nat.lt_of_le_of_ne (Nat.le_of_lt_succ hi) ?_, hp, rfl⟩
        rintro rfl
        exact Nat.lt_irrefl _ hlt
    · rename_i hge
      have hnone : ((List.range n).filter p)[k]? = none := by
        rw [List.getElem?_eq_none_iff, ← List.countP_eq_length_filter]
        exact Nat.le_of_not_lt hge
      -- none of the numbers below `n` stands at place `k`
      have hearlier : ¬ (i < n ∧ p i = true ∧ k = (List.range i).countP p) := by
        rw [← ih, hnone]
        exact Option.some_ne_none i ∘ Eq.symm
      by_cases hn : p n = true
      · rw [List.filter_cons_of_pos hn, List.filter_nil, List.getElem?_singleton]
        grind
      · rw [List.filter_cons_of_neg hn, List.filter_nil, List.getElem?_nil]
        grind

theorem mem_members_iff {group : Nat} (h : group < 16) {bitmap : UInt16} {byte : UInt8} :
    byte ∈ members group bitmap ↔
      byte.toNat / 16 = group ∧ flag bitmap (byte.toNat % 16) = true := by
  rw [members, List.mem_map]
  constructor
  · rintro ⟨i, hi, rfl⟩
    obtain ⟨hlt, hflag⟩ := List.mem_filter.1 hi
    rw [List.mem_range] at hlt
    rw [UInt8.toNat_ofNat', Nat.mod_eq_of_lt (show 16 * group + i < 2 ^ 8 by omega)]
    exact ⟨by omega, by rwa [show (16 * group + i) % 16 = i by omega]⟩
  · rintro ⟨rfl, hflag⟩
    refine ⟨byte.toNat % 16, List.mem_filter.2 ⟨List.mem_range.2 (by omega), hflag⟩, ?_⟩
    rw [Nat.div_add_mod, UInt8.ofNat_toNat]

/-- A byte is named if its group is used, the bitmap at the rank of the group is there, and this has
the flag of the byte. -/
theorem mem_decode_iff {groups : UInt16} {bitmaps : List UInt16} {byte : UInt8} :
    byte ∈ decode groups bitmaps ↔ flag groups (byte.toNat / 16) = true ∧
      ∃ bitmap, bitmaps[rank groups (byte.toNat / 16)]? = some bitmap ∧
        flag bitmap (byte.toNat % 16) = true := by
  have hgroup : byte.toNat / 16 < 16 := by
    have := byte.toNat_lt
    omega
  rw [decode, List.mem_flatMap]
  constructor
  · rintro ⟨⟨group, bitmap⟩, hpair, hbyte⟩
    obtain ⟨k, hk⟩ := List.mem_iff_getElem?.1 hpair
    obtain ⟨hused, hbitmap⟩ := List.getElem?_zip_eq_some.1 hk
    obtain ⟨hlt, hflag, rfl⟩ := (getElem?_filter_range _ _ _ _).1 hused
    obtain ⟨rfl, hmember⟩ := (mem_members_iff hlt).1 hbyte
    exact ⟨hflag, bitmap, hbitmap, hmember⟩
  · rintro ⟨hflag, bitmap, hbitmap, hmember⟩
    refine ⟨(byte.toNat / 16, bitmap), List.mem_of_getElem? (List.getElem?_zip_eq_some.2
      ⟨(getElem?_filter_range _ _ _ _).2 ⟨hgroup, hflag, rfl⟩, hbitmap⟩), ?_⟩
    exact (mem_members_iff hgroup).2 ⟨rfl, hmember⟩

theorem length_flatMap_zip {groups : List Nat} {bitmaps : List UInt16}
    (h : bitmaps.length = groups.length) :
    ((groups.zip bitmaps).flatMap fun pair => members pair.1 pair.2).length =
      (bitmaps.flatMap flagged).length := by
  induction groups generalizing bitmaps with
  | nil =>
    obtain rfl := List.length_eq_zero_iff.1 h
    rfl
  | cons group groups ih =>
    obtain ⟨bitmap, bitmaps, rfl⟩ := List.exists_cons_of_length_eq_add_one h
    rw [List.zip_cons_cons, List.flatMap_cons, List.flatMap_cons, List.length_append,
      List.length_append, ih (Nat.succ.inj h), members, List.length_map]

end Bunzip.UsedMap
