import Bunzip.Stream.Text
import Mathlib.Order.Monotone.Basic

/-!
# Where the flips are

Both counters keep in step with the sums of the intervals. What a `Randomiser` has left is what is
missing to the next sum (`Randomiser.At`), what a `Countdown` has left is what is missing to the sum
of the intervals it has loaded (`Countdown.At`). So both flip the bytes that the rule of the format
names (`Randomiser.maskAt_iff`, `Countdown.mask_drawn`). Masks laid on twice cancel
(`Stream.masked_masked`).
-/

namespace Bunzip

namespace Randomiser

variable {n count : Nat} {r : Randomiser}

/-! ## Sums of intervals -/

/-- Every interval is longer than one, and fits in 16 bits. -/
theorem intervals_range (i : Fin 512) : 1 < intervals.get i ∧ intervals.get i < 2 ^ 16 := by
  have hall : ∀ n ∈ intervals.toList, 1 < n ∧ n < 2 ^ 16 := by decide +kernel
  exact hall _ (Vector.mem_toList_iff.2 (Vector.getElem_mem i.isLt))

theorem total_lt_succ (count : Nat) : total count + 1 < total (count + 1) := by
  have hlong := (intervals_range (Fin.ofNat 512 count)).1
  rw [total]
  omega

theorem total_monotone : Monotone total :=
  monotone_nat_of_le_succ fun count => Nat.le_of_lt (Nat.lt_of_succ_lt (total_lt_succ count))

/-- The sums are more than one apart. -/
theorem total_lt {i j : Nat} (h : i < j) : total i + 1 < total j :=
  Nat.lt_of_lt_of_le (total_lt_succ i) (total_monotone h)

theorem ofNat_succ (count : Nat) : Fin.ofNat 512 (count + 1) = Fin.ofNat 512 count + 1 := by
  ext
  simp [Fin.val_add]

theorem not_flipped_of_lt (hle : total count < n + 2) (hlt : n + 2 < total (count + 1)) :
    ¬ Flipped n := by
  rintro ⟨other, -, hother⟩
  rcases Nat.lt_or_ge count other with hmore | hless
  · have hsum : total (count + 1) ≤ total other := total_monotone hmore
    omega
  · have hsum : total other ≤ total count := total_monotone hless
    omega

/-! ## The countdown of a randomiser -/

/-- After `n` bytes, `count` of which were flipped, what is left ends at the next sum. -/
structure At (n count : Nat) (r : Randomiser) : Prop where
  index_eq : r.index = Fin.ofNat 512 count
  left_pos : 0 < r.left
  left_lt : r.left < 2 ^ 16
  sum_eq : n + 1 + r.left = total (count + 1)
  le : total count ≤ n + 1

theorem at_start : At 0 0 start := ⟨rfl, by decide, by decide, by decide, by decide⟩

/-- The next byte is flipped exactly if its place is the next sum. -/
theorem At.next (h : At n count r) :
    (∃ other, At (n + 1) other r.next.2) ∧ (r.next.1 = 1 ↔ Flipped n) ∧
      (r.next.1 = 0 ↔ ¬ Flipped n) := by
  obtain ⟨hindex, hpos, hlt, hsum, hle⟩ := h
  by_cases hleft : r.left = 1
  · have hflipped : Flipped n := ⟨count + 1, Nat.succ_pos count, by omega⟩
    rw [Randomiser.next, if_pos hleft]
    refine ⟨⟨count + 1, ?_, ?_, (intervals_range _).2, ?_, by omega⟩, by simp [hflipped],
      by simp [hflipped]⟩
    · show r.index + 1 = _
      rw [hindex, ofNat_succ]
    · exact Nat.lt_of_succ_lt (intervals_range _).1
    · show n + 1 + 1 + intervals.get (r.index + 1) = total (count + 1) + _
      rw [hindex, ofNat_succ]
      omega
  · have hflipped : ¬ Flipped n := 
      not_flipped_of_lt (show total count < n + 2 by omega) (by omega)
    rw [Randomiser.next, if_neg hleft]
    refine ⟨⟨count, hindex, ?_, ?_, ?_, by omega⟩, by simp [hflipped], by simp [hflipped]⟩
    · show 0 < r.left - 1
      omega
    · show r.left - 1 < 2 ^ 16
      omega
    · show n + 1 + 1 + (r.left - 1) = _
      omega

/-! ## Many masks -/

theorem masks_succ (n : Nat) (r : Randomiser) :
    masks (n + 1) r = ((masks n r).1 ++ [(masks n r).2.next.1], (masks n r).2.next.2) := by
  induction n generalizing r with
  | zero => rfl
  | succ n ih =>
    show (r.next.1 :: (masks (n + 1) r.next.2).1, (masks (n + 1) r.next.2).2) = _
    rw [ih]
    rfl

theorem at_masks (n : Nat) : ∃ count, At n count (start.masks n).2 := by
  induction n with
  | zero => exact ⟨0, at_start⟩
  | succ n ih =>
    obtain ⟨count, hcount⟩ := ih
    rw [masks_succ]
    exact hcount.next.1

/-- The mask of byte `n`. -/
def maskAt (n : Nat) : UInt8 := (start.masks n).2.next.1

/-- The rule of the format. -/
theorem maskAt_iff (n : Nat) : (maskAt n = 1 ↔ Flipped n) ∧ (maskAt n = 0 ↔ ¬ Flipped n) := by
  obtain ⟨count, hcount⟩ := at_masks n
  exact hcount.next.2

/-- The first interval is counted one shorter. -/
example : [maskAt 616, maskAt 617, maskAt 618] = [0, 1, 0] := by decide +kernel

theorem masks_start (n : Nat) : (start.masks n).1 = (List.range n).map maskAt := by
  induction n with
  | zero => rfl
  | succ n ih =>
    rw [masks_succ, List.range_succ, List.map_append, ih]
    rfl

theorem left_masks (n : Nat) :
    0 < (start.masks n).2.left ∧ (start.masks n).2.left < 2 ^ 16 := by
  obtain ⟨count, hcount⟩ := at_masks n
  exact ⟨hcount.left_pos, hcount.left_lt⟩

end Randomiser

namespace Countdown

open Randomiser

variable {n count : Nat} {c : Countdown}

/-- After `n` bytes, with `count` intervals loaded, the last of them ends what is left. -/
structure At (n count : Nat) (c : Countdown) : Prop where
  index_eq : c.index = Fin.ofNat 512 count
  sum_eq : n + c.left = total count
  le : ∀ earlier < count, total earlier ≤ n

theorem at_start : At 0 0 start := ⟨rfl, rfl, fun _ h => absurd h (Nat.not_lt_zero _)⟩

theorem At.load (h : At n count c) : ∃ loaded, At n loaded c.load ∧ 0 < c.load.left := by
  obtain ⟨hindex, hsum, hle⟩ := h
  by_cases hleft : c.left = 0
  · have hlong := (intervals_range c.index).1
    rw [Countdown.load, if_pos hleft]
    refine ⟨count + 1, ⟨?_, ?_, fun earlier hearlier => ?_⟩, Nat.lt_of_succ_lt hlong⟩
    · rw [ofNat_succ, ← hindex]
    · show n + intervals.get c.index = total count + _
      rw [hindex]
      omega
    · have hmono : total earlier ≤ total count := total_monotone (Nat.le_of_lt_succ hearlier)
      omega
  · rw [Countdown.load, if_neg hleft]
    exact ⟨count, ⟨hindex, hsum, hle⟩, Nat.pos_of_ne_zero hleft⟩

/-- A counter just loaded does not run past a sum, since no two sums are one apart. -/
theorem At.next (h : At n count c) :
    (∃ loaded, At (n + 1) loaded c.next.2) ∧ (c.next.1 = 1 ↔ Flipped n) ∧
      (c.next.1 = 0 ↔ ¬ Flipped n) := by
  obtain ⟨loaded, ⟨hindex, hsum, hle⟩, hpos⟩ := h.load
  have hflipped : c.load.left - 1 = 1 ↔ Flipped n := by
    refine ⟨fun hone => ⟨loaded, Nat.pos_of_ne_zero fun hzero => ?_, by omega⟩, ?_⟩
    · rw [hzero, total] at hsum
      omega
    · rintro ⟨other, -, hother⟩
      rcases Nat.lt_trichotomy other loaded with hless | rfl | hmore
      · have := hle other hless
        omega
      · omega
      · have := total_lt hmore
        omega
  have hbefore (earlier : Nat) (hearlier : earlier < loaded) : total earlier ≤ n + 1 :=
    Nat.le_succ_of_le (hle earlier hearlier)
  refine ⟨⟨loaded, hindex, ?_, hbefore⟩, ?_⟩
  · show n + 1 + (c.load.left - 1) = _
    omega
  · rw [← hflipped]
    unfold Countdown.next
    by_cases hone : c.load.left - 1 = 1
    · simp [hone]
    · simp [hone]

theorem at_drawn (n : Nat) : ∃ loaded, At n loaded (drawn n) := by
  induction n with
  | zero => exact ⟨0, at_start⟩
  | succ n ih =>
    obtain ⟨loaded, hloaded⟩ := ih
    exact hloaded.next.1

/-- The counter of the format gives the masks of the randomiser. -/
theorem mask_drawn (n : Nat) : (drawn n).next.1 = maskAt n := by
  obtain ⟨loaded, hloaded⟩ := at_drawn n
  obtain ⟨-, hone, hzero⟩ := hloaded.next
  by_cases hflipped : Flipped n
  · rw [hone.2 hflipped, (maskAt_iff n).1.2 hflipped]
  · rw [hzero.2 hflipped, (maskAt_iff n).2.2 hflipped]

end Countdown

namespace Stream

/-! ## Masks over bytes -/

theorem zipWith_xor_cancel (bytes masks : List UInt8) (h : masks.length = bytes.length) :
    List.zipWith (· ^^^ ·) (List.zipWith (· ^^^ ·) bytes masks) masks = bytes := by
  induction bytes generalizing masks with
  | nil => rfl
  | cons byte bytes ih =>
    cases masks with
    | nil => cases h
    | cons mask masks =>
      rw [List.zipWith_cons_cons, List.zipWith_cons_cons, ih masks (Nat.succ.inj h),
        UInt8.xor_assoc, UInt8.xor_self, UInt8.xor_zero]

theorem length_masked (randomised : Bool) (bytes : List UInt8) :
    (masked randomised bytes).length = bytes.length := by
  cases randomised with
  | true => simp [masked, Randomiser.length_masks]
  | false => rfl

/-- Masks laid on twice cancel. -/
theorem masked_masked (randomised : Bool) (bytes : List UInt8) :
    masked randomised (masked randomised bytes) = bytes := by
  have hlength := length_masked randomised bytes
  cases randomised with
  | true =>
    rw [masked, if_pos rfl, hlength, masked, if_pos rfl]
    exact zipWith_xor_cancel bytes _ (Randomiser.length_masks _ _)
  | false => rfl

end Stream

end Bunzip
