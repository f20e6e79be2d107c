import Bunzip.Proofs.Block.Data
import Bunzip.Proofs.Crc.Register
import Bunzip.Stream.Decompressor

/-!
# Bursts

The lowest term of the polynomial is one, so no shift of the register loses anything
(`shift_injective`): registers that differ once still differ after any data. Up to four bytes are
added to the register without overlap (`aligned_injective`), so two messages that differ in a window
of four bytes have different checksums (`Burst.ofBytes_ne`). A block with such an error is therefore
refused, whatever comes before and behind the window (`detects_bursts`).
-/

namespace Bunzip.Crc

variable {a b : UInt32}

/-! ## Nothing is lost -/

/-- A shift clears no register, as the bit that falls out comes back as the lowest one. -/
theorem shift_ne_zero {register : UInt32} (h : register ≠ 0) : shift register ≠ 0 := by
  intro hshift
  rw [shift_eq] at hshift
  have hlow : (register <<< 1 ^^^ reduction (top register)).toBitVec.getLsbD 0 = top register := by
    cases top register <;> simp [reduction, polynomial]
  have htop : top register = false := by
    rw [← hlow, hshift]
    rfl
  rw [htop] at hshift
  apply h
  rw [← UInt32.toBitVec_inj]
  apply BitVec.eq_of_getLsbD_eq
  intro i hi
  -- the highest bit is zero, and each other one is the next of the shifted register
  by_cases hlast : i = 31
  · subst hlast
    exact htop
  · have hnext := congrArg (fun word : UInt32 => word.toBitVec.getLsbD (i + 1)) hshift
    have hin : i + 1 < 32 := by omega
    simpa [reduction, hin, hi] using hnext

theorem shift_injective (h : shift a = shift b) : a = b := by
  have hzero : shift (a ^^^ b) = 0 := by rw [shift_xor, h, UInt32.xor_self]
  by_cases hdiffer : a ^^^ b = 0
  · exact UInt32.xor_eq_zero_iff.1 hdiffer
  · exact absurd hzero (shift_ne_zero hdiffer)

theorem shifts_injective {n : Nat} (h : shifts n a = shifts n b) : a = b := by
  induction n generalizing a b with
  | zero => exact h
  | succ n ih => exact shift_injective (ih h)

theorem run_injective {bits : List Bool} (h : Serial.run a bits = Serial.run b bits) : a = b := by
  induction bits generalizing a b with
  | nil => exact h
  | cons bit rest ih =>
    have hstep : Serial.step a bit = Serial.step b bit := ih h
    rw [step_eq, step_eq] at hstep
    exact (UInt32.xor_left_inj (atTop bit)).1 (shift_injective hstep)

/-! ## Four bytes -/

/-- Up to 32 bits are all in the word that they begin. -/
theorem aligned_injective {front back : List Bool} (hlength : front.length = back.length)
    (hle : front.length ≤ 32) (h : aligned front = aligned back) : front = back := by
  induction front generalizing back with
  | nil => exact (List.length_eq_zero_iff.1 hlength.symm).symm
  | cons bit front ih =>
    cases back with
    | nil => cases hlength
    | cons other back =>
      simp only [List.length_cons, Nat.succ.injEq] at hlength hle
      rw [aligned, aligned] at h
      have hbit : bit = other := by
        have htop := congrArg top h
        simpa using htop
      subst hbit
      have hrest : aligned front = aligned back := by
        rw [← shift_aligned (show front.length < 32 by omega),
          ← shift_aligned (show back.length < 32 by omega), (UInt32.xor_right_inj (atTop bit)).1 h]
      rw [ih hlength (by omega) hrest]

/-- Different bytes of a window lead a register to different ones. -/
theorem window_injective {front back : List UInt8} {register : UInt32}
    (hlength : front.length = back.length) (hle : front.length ≤ 4)
    (h : Serial.run register (Bits.ofBytes front) = Serial.run register (Bits.ofBytes back)) :
    front = back := by
  have hfront : (Bits.ofBytes front).length ≤ 32 := by
    rw [Bits.length_ofBytes]
    omega
  have hbits : (Bits.ofBytes front).length = (Bits.ofBytes back).length := by
    rw [Bits.length_ofBytes, Bits.length_ofBytes, hlength]
  rw [run_eq_shifts hfront, run_eq_shifts (hbits ▸ hfront), hbits] at h
  have haligned := (UInt32.xor_right_inj register).1 (shifts_injective h)
  have heq := aligned_injective hbits hfront haligned
  rw [← Bits.pack_ofBytes front, heq, Bits.pack_ofBytes]

/-- Two messages of the same length that are not the same, but are outside some four bytes. -/
structure Burst (intended given : List UInt8) : Prop where
  length_eq : intended.length = given.length
  ne : intended ≠ given
  window : ∃ first, ∀ i, intended[i]? ≠ given[i]? → first ≤ i ∧ i < first + 4

variable {intended given : List UInt8}

/-- A burst is a window between two parts that the messages share. -/
theorem Burst.exists_window (h : Burst intended given) : ∃ front x y back,
    intended = front ++ x ++ back ∧ given = front ++ y ++ back ∧ x.length = y.length ∧
      x.length ≤ 4 ∧ x ≠ y := by
  obtain ⟨hlength, hne, first, hwindow⟩ := h
  have hsplit (bytes : List UInt8) : bytes =
      bytes.take first ++ (bytes.drop first).take 4 ++ bytes.drop (first + 4) := by
    rw [List.append_assoc, ← List.drop_drop, List.take_append_drop, List.take_append_drop]
  have hsame (i : Nat) (houtside : i < first ∨ first + 4 ≤ i) : intended[i]? = given[i]? := by
    by_cases heq : intended[i]? = given[i]?
    · exact heq
    · have := hwindow i heq
      omega
  have hfront : intended.take first = given.take first := by
    apply List.ext_getElem?
    intro i
    rw [List.getElem?_take, List.getElem?_take]
    by_cases hi : i < first
    · rw [if_pos hi, if_pos hi, hsame i (.inl hi)]
    · rw [if_neg hi, if_neg hi]
  have hback : intended.drop (first + 4) = given.drop (first + 4) := by
    apply List.ext_getElem?
    intro i
    rw [List.getElem?_drop, List.getElem?_drop, hsame _ (.inr (Nat.le_add_right _ _))]
  refine ⟨given.take first, (intended.drop first).take 4, (given.drop first).take 4,
    given.drop (first + 4), ?_, hsplit given, ?_, ?_, fun heq => hne ?_⟩
  · rw [← hfront, ← hback]
    exact hsplit intended
  · rw [List.length_take, List.length_take, List.length_drop, List.length_drop, hlength]
  · exact List.length_take_le _ _
  · rw [hsplit intended, hsplit given, hfront, hback, heq]

/-- A burst changes the checksum. -/
theorem Burst.ofBytes_ne (h : Burst intended given) : ofBytes intended ≠ ofBytes given := by
  obtain ⟨front, x, y, back, rfl, rfl, hlength, hle, hne⟩ := h.exists_window
  intro heq
  simp only [ofBytes_eq_serial, Serial.ofBytes, Bits.ofBytes_append, Serial.run_append] at heq
  exact hne (window_injective hlength hle (run_injective (UInt32.not_inj.1 heq)))

/-! ## Blocks -/

open Block

theorem refused_of_ne {readout last : Readout} {data : Array UInt8} {stored : UInt32}
    (hdrain : readout.drain #[] = .ok (data, last)) (hcrc : last.crc.value = ofBytes data.toList)
    (hstored : last.stored = stored) (hne : stored ≠ ofBytes data.toList) :
    last.checkCrc = .error (.stream (.blockCrcMismatch stored (ofBytes data.toList))) ∧
      ∀ state reader chunk, (Stream.Decompressor.deliver state reader readout chunk).result =
        .error (.stream (.blockCrcMismatch stored (ofBytes data.toList))) := by
  have hcheck : last.checkCrc =
      .error (.stream (.blockCrcMismatch stored (ofBytes data.toList))) := by
    rw [Readout.checkCrc, hcrc, hstored, if_neg hne.symm]
  refine ⟨hcheck, fun state reader chunk => ?_⟩
  simp only [Stream.Decompressor.deliver, hdrain, hcheck]

/-- A burst changes the checksum. So a block that stores the checksum of other data than it has, and
differs from these by a burst, is refused at its end, however its payload was suspended. -/
theorem detects_bursts (h : Burst intended given) :
    extend 0 intended ≠ extend 0 given ∧
      ∀ limit (head : Head) used decoder r chunks readout after rest,
        (Payload.start limit head used decoder).runChunks r chunks =
          .ok (some readout) (after, rest) →
        ∃ data last, readout.drain #[] = .ok (data, last) ∧
          (head.stored = ofBytes intended → data.toList = given →
            last.checkCrc =
              .error (.stream (.blockCrcMismatch (ofBytes intended) (ofBytes given))) ∧
            ∀ state reader chunk,
              (Stream.Decompressor.deliver state reader readout chunk).result =
                .error (.stream (.blockCrcMismatch (ofBytes intended) (ofBytes given)))) := by
  refine ⟨h.ofBytes_ne, ?_⟩
  intro limit head used decoder r chunks readout after rest hrun
  obtain ⟨walk, bytes, rfl, hgives, -⟩ := Payload.gives_of_runChunks hrun
  obtain ⟨data, last, hdrain, -, hcrc, hlast⟩ :=
    Readout.drain_start hgives head.randomised head.stored
  refine ⟨data, last, hdrain, fun hstored hdata => ?_⟩
  subst hdata
  exact refused_of_ne hdrain hcrc (hlast.trans hstored) h.ofBytes_ne

/-- A block of eight bytes that stores the checksum of others, three of which differ between the
first two and the last two. -/
theorem detects_bursts_inside :
    ∃ readout after rest data last,
      (Payload.start 8 ⟨ofBytes [97, 98, 120, 121, 97, 122, 97, 98], false, 3⟩ [97, 98]
        ⟨#[Huffman.Table.ofLengths [2, 2, 2, 2]], #[0], 0⟩).runChunks
          (BitReader.bind BitState.empty [0xa9, 0x9c, 0, 0, 0]) [] =
        .ok (some readout) (after, rest) ∧
      readout.drain #[] = .ok (data, last) ∧
      last.checkCrc = .error (.stream (.blockCrcMismatch
        (ofBytes [97, 98, 120, 121, 97, 122, 97, 98])
        (ofBytes [97, 98, 98, 97, 97, 98, 97, 98]))) := by
  have hburst : Burst [97, 98, 120, 121, 97, 122, 97, 98] [97, 98, 98, 97, 97, 98, 97, 98] := by
    refine ⟨rfl, by decide, 2, fun i hdiffer => ?_⟩
    have hinside : ∀ i < 8, ([97, 98, 120, 121, 97, 122, 97, 98] : List UInt8)[i]? ≠
        ([97, 98, 98, 97, 97, 98, 97, 98] : List UInt8)[i]? → 2 ≤ i ∧ i < 2 + 4 := by
      decide
    by_cases hi : i < 8
    · exact hinside i hi hdiffer
    · rw [List.getElem?_eq_none (Nat.le_of_not_lt hi),
        List.getElem?_eq_none (Nat.le_of_not_lt hi)] at hdiffer
      exact absurd rfl hdiffer
  have hserves : Huffman.Decoder.Serves ⟨#[Huffman.Table.ofLengths [2, 2, 2, 2]], #[0], 0⟩
      ([2, 2, 2, 1, 2, 1] ++ [(Expansion.start 8 [97, 98]).used.size + 1])
      (Huffman.words (fun _ => [2, 2, 2, 2]) 0 [2, 2, 2, 1, 2, 1, 3]) := by
    refine Huffman.Decoder.serves_words fun symbol i hmem => ?_
    have hgroup : symbol < 4 ∧ i / Format.groupSize = 0 := by
      have hall : ∀ pair ∈ List.zipIdx [2, 2, 2, 1, 2, 1, 3],
          pair.1 < 4 ∧ pair.2 / Format.groupSize = 0 := by
        decide
      exact hall (symbol, i) hmem
    have hword : ∀ other < 4,
        Huffman.Canonical.codeWord? [2, 2, 2, 2] other = some (Bits.ofNat 2 other) := by
      decide
    refine ⟨0, Bits.ofNat 2 symbol, by rw [hgroup.2]; rfl, rfl, hword symbol hgroup.1, ?_⟩
    rw [Bits.length_ofNat]
    decide
  have hcomplete : ∃ walk after rest,
      (Payload.start 8 ⟨ofBytes [97, 98, 120, 121, 97, 122, 97, 98], false, 3⟩ [97, 98]
        ⟨#[Huffman.Table.ofLengths [2, 2, 2, 2]], #[0], 0⟩).runChunks
          (BitReader.bind BitState.empty [0xa9, 0x9c, 0, 0, 0]) [] =
        .ok (some (Readout.start walk false (ofBytes [97, 98, 120, 121, 97, 122, 97, 98])))
          (after, rest) ∧
      walk.Gives (Rotations.unsort [98, 97, 98, 98, 98, 97, 97, 97] 3) ∧
      rest.bits = List.replicate 26 false :=
    Payload.run_symbols (Expansion.holds_start 8 (by simp) (by decide)) (by decide) hserves
      (by decide) (by decide) (by decide) (by decide) (by decide) (by decide) (by decide)
  obtain ⟨walk, after, rest, hrun, hgives, -⟩ := hcomplete
  obtain ⟨-, hblocks⟩ := detects_bursts hburst
  obtain ⟨data, last, hdrain, hrefused⟩ := hblocks _ _ _ _ _ _ _ _ _ hrun
  obtain ⟨data', last', hdrain', hdata, -⟩ := Readout.drain_start hgives false
    (ofBytes [97, 98, 120, 121, 97, 122, 97, 98])
  rw [hdrain] at hdrain'
  cases hdrain'
  have hunsort : Rotations.unsort [98, 97, 98, 98, 98, 97, 97, 97] 3 =
      [97, 98, 98, 97, 97, 98, 97, 98] := by
    have hrows : Rotations.sorted [97, 98, 98, 97, 97, 98, 97, 98] =
      [[97, 97, 98, 97, 98, 97, 98, 98], [97, 98, 97, 98, 97, 98, 98, 97],
        [97, 98, 97, 98, 98, 97, 97, 98], [97, 98, 98, 97, 97, 98, 97, 98],
        [98, 97, 97, 98, 97, 98, 97, 98], [98, 97, 98, 97, 98, 98, 97, 97],
        [98, 97, 98, 98, 97, 97, 98, 97], [98, 98, 97, 97, 98, 97, 98, 97]] :=
      Rotations.sorted_eq (by decide) (by decide)
    have hcolumn : Rotations.lastColumn [97, 98, 98, 97, 97, 98, 97, 98] =
        [98, 97, 98, 98, 98, 97, 97, 97] := by
      rw [Rotations.lastColumn, hrows]
      rfl
    have hrow := Rotations.unsort_lastColumn
      (show (Rotations.sorted [97, 98, 98, 97, 97, 98, 97, 98])[3]? =
        some [97, 98, 98, 97, 97, 98, 97, 98] by
          rw [hrows]
          rfl)
    rwa [hcolumn] at hrow
  have hgiven : data.toList = [97, 98, 98, 97, 97, 98, 97, 98] := by
    rw [hdata, hunsort]
    rfl
  exact ⟨_, after, rest, data, last, hrun, hdrain, (hrefused rfl hgiven).1⟩

end Bunzip.Crc
