/-!
# Runs cut short

Before a block is sorted, long runs of its data are cut short: four equal bytes are followed by the
number of further copies, 255 at most. `decode` takes in a byte at a time and keeps the last byte
and how often it came in a row; `encode` takes off a run at a time.

The main statement is that decoding undoes encoding (`decode_encode`).
-/

namespace Bunzip.Block.RunLength

/-- The data of a byte sequence, when `equal` copies of `last` came before. After four equal bytes
comes a count, unless the sequence ends there. -/
def decode (last : Option UInt8) (equal : Nat) : List UInt8 → List UInt8
  | [] => []
  | byte :: rest =>
    if last ≠ some byte then byte :: decode (some byte) 1 rest
    else if equal + 1 ≠ 4 then byte :: decode (some byte) (equal + 1) rest
    else
      match rest with
      | [] => [byte]
      | count :: rest => List.replicate (count.toNat + 1) byte ++ decode (some byte) 0 rest

def maxRun : Nat := 4 + 255

/-- A run cut short. -/
def encodeRun (byte : UInt8) (count : Nat) : List UInt8 :=
  if count < 4 then List.replicate count byte
  else List.replicate 4 byte ++ [UInt8.ofNat (count - 4)]

/-- How many bytes at the front of a sequence are equal to a byte, up to the rest of a longest
run. -/
def followers (byte : UInt8) (rest : List UInt8) : Nat :=
  min (rest.takeWhile (· == byte)).length (maxRun - 1)

/-- Data with its long runs cut short. -/
def encode : List UInt8 → List UInt8
  | [] => []
  | byte :: rest =>
    encodeRun byte (followers byte rest + 1) ++ encode (rest.drop (followers byte rest))
termination_by data => data.length
decreasing_by simp only [List.length_drop, List.length_cons]; omega

/-! ## Decoding undoes encoding -/

theorem decode_cons {last : Option UInt8} {equal : Nat} {byte : UInt8} {rest : List UInt8}
    (h : last ≠ some byte ∨ equal = 0) :
    decode last equal (byte :: rest) = byte :: decode (some byte) 1 rest := by
  rw [decode.eq_def]
  by_cases hlast : last = some byte
  · have hequal : equal = 0 := by simpa [hlast] using h
    simp [hlast, hequal]
  · simp [hlast]

theorem decode_cons_equal {equal : Nat} {byte : UInt8} {rest : List UInt8} (h : equal + 1 ≠ 4) :
    decode (some byte) equal (byte :: rest) = byte :: decode (some byte) (equal + 1) rest := by
  rw [decode.eq_def]
  simp [h]

theorem decode_count {byte count : UInt8} {rest : List UInt8} :
    decode (some byte) 3 (byte :: count :: rest) =
      List.replicate (count.toNat + 1) byte ++ decode (some byte) 0 rest := by
  rw [decode.eq_def]
  simp

theorem decode_encodeRun {last : Option UInt8} {equal : Nat} {byte : UInt8} {count : Nat}
    {rest : List UInt8} (h : last ≠ some byte ∨ equal = 0) (hpos : 0 < count)
    (hcount : count ≤ maxRun) :
    decode last equal (encodeRun byte count ++ rest) =
      List.replicate count byte ++ decode (some byte) (if count < 4 then count else 0) rest := by
  unfold encodeRun
  by_cases hshort : count < 4
  · simp only [if_pos hshort]
    match count with
    | 1 => simp [decode_cons h]
    | 2 => simp [List.replicate, decode_cons h, decode_cons_equal]
    | 3 => simp [List.replicate, decode_cons h, decode_cons_equal]
  · have hbyte : (UInt8.ofNat (count - 4)).toNat = count - 4 := by
      unfold maxRun at hcount
      simp only [UInt8.toNat_ofNat']
      omega
    simp only [if_neg hshort, List.replicate_succ, List.replicate_zero, List.cons_append,
      List.nil_append, decode_cons h]
    rw [decode_cons_equal (by omega), decode_cons_equal (by omega), decode_count, hbyte]
    obtain ⟨n, rfl⟩ : ∃ n, count = n + 4 := ⟨count - 4, by omega⟩
    simp [List.replicate_succ]

theorem take_followers (byte : UInt8) (rest : List UInt8) :
    rest.take (followers byte rest) = List.replicate (followers byte rest) byte := by
  have hle : followers byte rest ≤ (rest.takeWhile (· == byte)).length := Nat.min_le_left ..
  have hfront := List.prefix_iff_eq_take.1 (List.takeWhile_prefix (l := rest) (· == byte))
  have htake : rest.take (followers byte rest) =
      (rest.takeWhile (· == byte)).take (followers byte rest) := by
    rw [hfront, List.take_take, Nat.min_eq_left hle]
  rw [List.eq_replicate_iff]
  constructor
  · rw [htake, List.length_take, Nat.min_eq_left hle]
  · intro other hother
    rw [htake] at hother
    have := List.all_eq_true.1 List.all_takeWhile other (List.mem_of_mem_take hother)
    simpa using this

theorem head?_drop_followers {byte : UInt8} {rest : List UInt8}
    (h : followers byte rest < maxRun - 1) :
    (rest.drop (followers byte rest)).head? ≠ some byte := by
  have hfollowers : followers byte rest = (rest.takeWhile (· == byte)).length := by
    unfold followers at *
    omega
  have hdrop : rest.drop (followers byte rest) = rest.dropWhile (· == byte) := by
    rw [hfollowers]
    calc rest.drop (rest.takeWhile (· == byte)).length
        = (rest.takeWhile (· == byte) ++ rest.dropWhile (· == byte)).drop
            (rest.takeWhile (· == byte)).length := by rw [List.takeWhile_append_dropWhile]
      _ = rest.dropWhile (· == byte) := List.drop_left
  rw [hdrop]
  intro hhead
  have := List.head?_dropWhile_not (· == byte) rest
  rw [hhead] at this
  simp at this

theorem decode_encode_after (last : Option UInt8) (equal : Nat) (data : List UInt8)
    (h : ∀ byte, data.head? = some byte → last ≠ some byte ∨ equal = 0) :
    decode last equal (encode data) = data := by
  induction hlen : data.length using Nat.strongRecOn generalizing last equal data with
  | ind n ih =>
    match data with
    | [] => simp [encode, decode]
    | byte :: rest =>
      have hmax : followers byte rest + 1 ≤ maxRun := by unfold followers maxRun; omega
      rw [encode, decode_encodeRun (h byte rfl) (by omega) hmax]
      rw [ih (rest.drop (followers byte rest)).length _ _ _ _ ?_ rfl]
      · rw [List.replicate_succ, List.cons_append, ← take_followers, List.take_append_drop]
      · simp only [List.length_drop, ← hlen, List.length_cons]
        omega
      · intro other hother
        by_cases hshort : followers byte rest + 1 < 4
        · have hlt : followers byte rest < maxRun - 1 := by unfold maxRun; omega
          have hne := head?_drop_followers hlt
          left
          intro heq
          injection heq with heq
          subst heq
          exact hne hother
        · exact .inr (if_neg hshort)

/-- Decoding undoes encoding. -/
theorem decode_encode (data : List UInt8) : decode none 0 (encode data) = data :=
  decode_encode_after none 0 data fun _ _ => .inr rfl

end Bunzip.Block.RunLength
