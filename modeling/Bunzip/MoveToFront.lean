/-!
# Move to front

Bytes ordered by how recently each was named. `take?` looks up the byte at a position and brings it
to the front; the bytes before it go back by one place.

The main statements are that `take?` is removal and insertion at the front on lists (`toList_raise`)
and that the table stays a permutation of itself (`raise_perm`). `encode` gives the positions that
name a byte sequence.
-/

namespace Bunzip

/-- Bytes in the order of their last use. -/
structure MoveToFront where
  order : Array UInt8
deriving Repr, DecidableEq, Inhabited

namespace MoveToFront

/-- The bytes `0, 1, …` below `size`; there are 256 at most. -/
def ofSize (size : Nat) : MoveToFront :=
  ⟨(Array.range (min size 256)).map UInt8.ofNat⟩

/-- Brings the entry at a position to the front by exchanging neighbours, four pairs to a round. -/
def raise (order : Array UInt8) : Nat → Array UInt8
  | 0 => order
  | i + 4 =>
    let order := order.swapIfInBounds (i + 4) (i + 3)
    let order := order.swapIfInBounds (i + 3) (i + 2)
    let order := order.swapIfInBounds (i + 2) (i + 1)
    raise (order.swapIfInBounds (i + 1) i) i
  | i + 1 => raise (order.swapIfInBounds (i + 1) i) i

/-- The byte at a position, which moves to the front; none if there is no such position. -/
def take? (table : MoveToFront) (position : Nat) : Option (UInt8 × MoveToFront) :=
  match table with
  | ⟨order⟩ =>
    match order[position]? with
    | none => none
    | some byte => some (byte, ⟨raise order position⟩)

def toList (table : MoveToFront) : List UInt8 := table.order.toList

/-! ## The table as a list -/

/-- Exchanging neighbours from `i` down moves the entry at `i` to the front. -/
theorem raise_one (order : Array UInt8) (i : Nat) :
    raise order (i + 1) = raise (order.swapIfInBounds (i + 1) i) i := by
  induction i using Nat.strongRecOn generalizing order with
  | ind i ih =>
    match i with
    | 0 => rfl
    | 1 => rfl
    | 2 => rfl
    | j + 3 =>
      rw [raise, ih (j + 2) (by omega), ih (j + 1) (by omega), ih j (by omega)]

theorem swapIfInBounds_perm (order : Array UInt8) (i j : Nat) :
    (order.swapIfInBounds i j).Perm order := by
  rw [Array.swapIfInBounds_def]
  split
  · split
    · exact Array.swap_perm ..
    · exact .rfl
  · exact .rfl

/-- The table stays a permutation of itself. -/
theorem raise_perm (order : Array UInt8) (i : Nat) : (raise order i).Perm order := by
  induction i generalizing order with
  | zero => exact .rfl
  | succ i ih =>
    rw [raise_one]
    exact (ih _).trans (swapIfInBounds_perm ..)

@[simp] theorem size_raise (order : Array UInt8) (i : Nat) : (raise order i).size = order.size :=
  (raise_perm order i).size_eq

/-- The entry at `i` comes first, the others follow in their old order. -/
theorem toList_raise (order : Array UInt8) (i : Nat) (hi : i < order.size) :
    (raise order i).toList = order[i] :: order.toList.eraseIdx i := by
  induction i generalizing order with
  | zero =>
    obtain ⟨list⟩ := order
    cases list with
    | nil => simp at hi
    | cons => simp [raise]
  | succ i ih =>
    have hswap : order.swapIfInBounds (i + 1) i = order.swap (i + 1) i hi (by omega) := by
      rw [Array.swapIfInBounds_def, dif_pos hi, dif_pos (by omega)]
    rw [raise_one]
    simp only [hswap]
    rw [ih _ (by rw [Array.size_swap]; omega), Array.getElem_swap_right]
    congr 1
    apply List.ext_getElem?
    intro j
    rw [List.getElem?_eraseIdx, List.getElem?_eraseIdx, Array.getElem?_toList,
      Array.getElem?_toList, Array.getElem?_swap, Array.getElem?_swap, Array.getElem?_toList,
      Array.getElem?_toList]
    rcases Nat.lt_trichotomy j i with hlt | rfl | hgt
    · rw [if_pos hlt, if_pos (show j < i + 1 by omega), if_neg (by omega), if_neg (by omega)]
    · rw [if_neg (Nat.lt_irrefl j), if_pos (Nat.lt_succ_self j), if_neg (by omega), if_pos rfl,
        Array.getElem?_eq_getElem]
    · rw [if_neg (show ¬ j < i by omega), if_neg (show ¬ j < i + 1 by omega), if_neg (by omega),
        if_neg (by omega)]

theorem take?_eq_none_iff (table : MoveToFront) (position : Nat) :
    table.take? position = none ↔ table.toList.length ≤ position := by
  obtain ⟨order⟩ := table
  rw [take?]
  cases h : order[position]? <;> grind [toList]

theorem take?_eq_some (table : MoveToFront) (position : Nat) (h : position < table.toList.length) :
    ∃ next, table.take? position = some (table.toList[position], next) ∧
      next.toList = table.toList[position] :: table.toList.eraseIdx position := by
  obtain ⟨order⟩ := table
  have hsize : position < order.size := by simpa [toList] using h
  exact ⟨⟨raise order position⟩, by simp [take?, toList, hsize],
    by simp [toList, toList_raise order position hsize]⟩

/-! ## Lists of positions -/

/-- The bytes that a list of positions names, beginning with the table `order`; a position that the
table lacks ends the list. -/
def decode (order : List UInt8) : List Nat → List UInt8
  | [] => []
  | position :: rest =>
    match order[position]? with
    | none => []
    | some byte => byte :: decode (byte :: order.eraseIdx position) rest

/-- The positions that name a byte sequence, beginning with the table `order`. -/
def encode (order : List UInt8) : List UInt8 → List Nat
  | [] => []
  | byte :: rest =>
    let position := order.idxOf byte
    position :: encode (byte :: order.eraseIdx position) rest

/-- A byte of the table is found where it stands, and the table keeps its bytes. -/
theorem decode_encode (order bytes : List UInt8) (h : ∀ byte ∈ bytes, byte ∈ order) :
    decode order (encode order bytes) = bytes := by
  induction bytes generalizing order with
  | nil => rfl
  | cons byte rest ih =>
    have hmem : byte ∈ order := h byte (by simp)
    have hlt : order.idxOf byte < order.length := List.idxOf_lt_length_of_mem hmem
    have hget : order[order.idxOf byte]? = some byte := by
      rw [List.getElem?_eq_getElem hlt, List.getElem_idxOf]
    simp only [encode, decode, hget]
    rw [ih]
    intro other hother
    rw [← List.erase_eq_eraseIdx_of_idxOf rfl]
    by_cases heq : other = byte
    · simp [heq]
    · exact List.mem_cons_of_mem _ ((List.mem_erase_of_ne heq).2 (h other (by simp [hother])))

end MoveToFront

end Bunzip
