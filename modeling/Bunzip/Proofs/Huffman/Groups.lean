import Bunzip.Huffman.Groups
import Bunzip.Proofs.Huffman.Prefixes
import Bunzip.Proofs.Huffman.Setup
import Bunzip.Proofs.MoveToFront
import Mathlib.Data.List.Induction

/-!
# The table of each symbol

What a block says about its tables comes in three steps. The positions that are stored as selectors
name tables (`Named.setSelectors`), and the positions written for a list of tables name that list
(`Selecting.setSelectors`). The group of a symbol names its selector: a `Decoder` divides, a
`GroupDecoder` counts, and `Tracks` says that the counters are where the division is. So each
symbol is read with the table that was named for its group (`selectors_followed`), whatever reader
each call is made with.
-/

namespace Bunzip.Huffman

namespace Setup

variable {setup after : Setup} {tables alphabet : Nat}

/-! ## Selectors stored in order -/

/-- The selectors and the recent tables are tables. -/
structure Named (setup : Setup) : Prop where
  selectors : ∀ selector ∈ setup.selectors, selector < setup.tables
  recents : ∀ table ∈ setup.recents.toList, table.toNat < setup.tables

theorem named_start (count : Nat) (htables : 0 < tables) (hle : tables ≤ 256) :
    ((start tables alphabet).setSelectorCount count).Named := by
  refine ⟨fun selector hselector => ?_, fun table htable => ?_⟩
  · rw [(Array.mem_replicate.1 hselector).2]
    exact htables
  · rw [(selecting_start alphabet count hle).recents] at htable
    obtain ⟨index, hindex, rfl⟩ := List.mem_map.1 htable
    rw [List.mem_range] at hindex
    rw [UInt8.toNat_ofNat_of_lt' (Nat.lt_of_lt_of_le hindex hle)]
    exact hindex

theorem Named.setSelector {index position : Nat} (h : setup.Named)
    (hset : setup.setSelector index position = .ok after) :
    after.Named ∧ after.tables = setup.tables := by
  obtain ⟨tables, alphabet, selectors, recents, lengths⟩ := setup
  obtain ⟨hselectors, hrecents⟩ := h
  simp only at hselectors hrecents
  simp only [Setup.setSelector] at hset
  split at hset
  · cases hset
  rcases Nat.lt_or_ge position recents.toList.length with hlt | hge
  · obtain ⟨next, htake, hnext⟩ := recents.take?_eq_some position hlt
    have htable := List.getElem?_eq_getElem hlt
    rw [htake] at hset
    simp only at hset
    split at hset
    · cases hset
      refine ⟨⟨fun selector hselector => ?_, fun table hmem => ?_⟩, rfl⟩
      · rcases Array.mem_or_eq_of_mem_setIfInBounds hselector with hmem | rfl
        · exact hselectors selector hmem
        · exact hrecents _ (List.getElem_mem hlt)
      · rw [hnext] at hmem
        exact hrecents table (MoveToFront.mem_of_mem_move htable hmem)
    · cases hset
  · rw [(recents.take?_eq_none_iff position).2 hge] at hset
    cases hset

theorem Named.setSelectors {index : Nat} {positions : List Nat} (h : setup.Named)
    (hset : setup.setSelectors index positions = .ok after) :
    after.Named ∧ after.tables = setup.tables := by
  induction positions generalizing setup index with
  | nil =>
    cases hset
    exact ⟨h, rfl⟩
  | cons position positions ih =>
    rw [Setup.setSelectors] at hset
    cases hfirst : setup.setSelector index position with
    | error fault =>
      rw [hfirst] at hset
      cases hset
    | ok first =>
      rw [hfirst] at hset
      obtain ⟨hnamed, htables⟩ := h.setSelector hfirst
      rw [← htables]
      exact ih hnamed hset

/-- Positions of recent tables store the tables that they name. -/
theorem Selecting.setSelectors {done positions : List Nat} {order : List UInt8}
    (h : setup.Selecting done positions.length order)
    (hpositions : ∀ position ∈ positions, position < order.length) :
    ∃ after, setup.setSelectors done.length positions = .ok after ∧
      after.selectors.toList = done ++ (MoveToFront.decode order positions).map UInt8.toNat ∧
      after.tables = setup.tables ∧ after.alphabet = setup.alphabet := by
  induction positions generalizing setup done order with
  | nil => exact ⟨setup, rfl, h.selectors, rfl, rfl⟩
  | cons position positions ih =>
    have hlt := hpositions position List.mem_cons_self
    have htable := List.getElem?_eq_getElem hlt
    obtain ⟨first, hfirst, hselecting, htables, halphabet, -⟩ := h.setSelector htable
    obtain ⟨last, hlast, hselectors, htables', halphabet'⟩ := ih hselecting fun other hother => by
      rw [MoveToFront.length_move hlt]
      exact hpositions other (List.mem_cons_of_mem _ hother)
    refine ⟨last, ?_, ?_, htables'.trans htables, halphabet'.trans halphabet⟩
    · rw [Setup.setSelectors, hfirst]
      rw [List.length_append, List.length_singleton] at hlast
      exact hlast
    · rw [hselectors, MoveToFront.decode, htable, List.map_cons, List.append_assoc]
      rfl

/-- The positions written for a list of tables store that list. -/
theorem setSelectors_encode {named : List Nat} (hle : tables ≤ 256)
    (hnamed : ∀ table ∈ named, table < tables) :
    ∃ setup, ((start tables alphabet).setSelectorCount named.length).setSelectors 0
        (MoveToFront.encode (MoveToFront.ofSize tables).toList (named.map UInt8.ofNat)) =
          .ok setup ∧
      setup.selectors.toList = named ∧ setup.tables = tables ∧ setup.alphabet = alphabet := by
  have hstart := selecting_start alphabet named.length hle
  have horder : (MoveToFront.ofSize tables).toList = (List.range tables).map UInt8.ofNat :=
    hstart.recents
  have hmem : ∀ byte ∈ named.map UInt8.ofNat, byte ∈ (List.range tables).map UInt8.ofNat := by
    intro byte hbyte
    obtain ⟨table, htable, rfl⟩ := List.mem_map.1 hbyte
    exact List.mem_map_of_mem (List.mem_range.2 (hnamed table htable))
  have hlength : (MoveToFront.encode ((List.range tables).map UInt8.ofNat)
      (named.map UInt8.ofNat)).length = named.length := by
    rw [MoveToFront.length_encode, List.length_map]
  obtain ⟨setup, hset, hselectors, htables, halphabet⟩ :=
    Selecting.setSelectors (hlength.symm ▸ hstart) fun _ => MoveToFront.lt_of_mem_encode hmem
  refine ⟨setup, ?_, ?_, htables, halphabet⟩
  · rw [horder]
    exact hlength ▸ hset
  · rw [hselectors, MoveToFront.decode_encode _ _ hmem, List.nil_append, List.map_map]
    have hbyte : named.map (UInt8.toNat ∘ UInt8.ofNat) = named.map id :=
      List.map_congr_left fun table htable =>
        UInt8.toNat_ofNat_of_lt' (Nat.lt_of_lt_of_le (hnamed table htable) hle)
    rw [hbyte, List.map_id]

end Setup

/-! ## Symbols by number -/

namespace Decoder

variable {d e : Decoder} {k : Nat} {lengths : List Nat} {groups : List (List Nat)}

def skip (d : Decoder) (k : Nat) : Decoder := ⟨d.tables, d.selectors, d.position + k⟩

/-- The decoder `e` has given `k` symbols more than `d`, each of them from any reader. -/
inductive Given (d : Decoder) : Nat → Decoder → Prop
  | start : Given d 0 d
  | call {k : Nat} {e next : Decoder} {r rest : BitReader} {symbol : Nat} (h : Given d k e)
      (hnext : e.next r = .ok (symbol, next) rest) : Given d (k + 1) next

theorem Given.eq_skip (h : d.Given k e) : e = d.skip k := by
  induction h with
  | start => rfl
  | @call k e next r rest symbol h hnext ih =>
    obtain ⟨-, htables, hselectors, hposition, -⟩ := next_eq_ok hnext
    obtain ⟨tables, selectors, position⟩ := next
    subst ih
    simp only at htables hselectors hposition
    rw [htables, hselectors, hposition]
    rfl

/-- The code lengths of each group of symbols, and no more groups. -/
structure Groups (d : Decoder) (groups : List (List Nat)) : Prop where
  uses : ∀ k lengths, groups[k / Format.groupSize]? = some lengths →
    (d.skip k).Uses lengths (d.skip k).position
  size : ∀ k, Format.groupSize * groups.length ≤ k →
    (d.skip k).selectors[(d.skip k).position / Format.groupSize]? = none

theorem symbol_of_uses (h : d.Uses lengths d.position) :
    Prod.fst <$> d.next = (Table.ofLengths lengths).decode := by
  rw [next_of_uses h, map_bind]
  simp only [map_pure, bind_pure]

theorem next_of_exhausted (h : d.selectors[d.position / Format.groupSize]? = none) :
    d.next = Scan.fail .selectorsExhausted := by
  simp only [next, h]

/-- Each symbol is read with the table of the code lengths of its group, and there are no symbols
behind the last group. -/
structure Follows (d : Decoder) (groups : List (List Nat)) : Prop where
  symbol : ∀ k e lengths, d.Given k e → groups[k / Format.groupSize]? = some lengths →
    Prod.fst <$> e.next = (Table.ofLengths lengths).decode
  exhausted : ∀ e, d.Given (Format.groupSize * groups.length) e →
    e.next = Scan.fail .selectorsExhausted

theorem Groups.follows (h : d.Groups groups) : d.Follows groups := by
  refine ⟨fun k e lengths hgiven hlengths => ?_, fun e hgiven => ?_⟩
  · rw [hgiven.eq_skip]
    exact symbol_of_uses (h.uses k lengths hlengths)
  · rw [hgiven.eq_skip]
    exact next_of_exhausted (h.size _ (Nat.le_refl _))

end Decoder

/-! ## Symbols by counters -/

namespace GroupDecoder

variable {g : GroupDecoder} {d : Decoder} {selector : Nat} {groups : List (List Nat)}

/-- The counters are at the symbol of the decoder: the groups begun are the full ones and the one in
which the last symbol was, whose table is the current one. -/
structure Tracks (g : GroupDecoder) (d : Decoder) : Prop where
  tables : g.tables = d.tables
  selectors : g.selectors = d.selectors
  position : g.position = d.position
  group : g.group = (d.position + (Format.groupSize - 1)) / Format.groupSize
  current : d.position % Format.groupSize ≠ 0 →
    d.selectors[d.position / Format.groupSize]? = some g.current

theorem tracks_grouped (h : d.position = 0) : d.grouped.Tracks d := by
  refine ⟨rfl, rfl, h.symm, ?_, fun hne => ?_⟩
  · rw [h]
    rfl
  · rw [h] at hne
    exact absurd rfl hne

/-- The counters find the selector that the division finds. -/
theorem Tracks.switch (h : g.Tracks d) :
    g.switch = (d.selectors[d.position / Format.groupSize]?).map fun selector =>
      ⟨d.tables, d.selectors, selector, d.position / Format.groupSize + 1, d.position⟩ := by
  obtain ⟨tables, selectors, current, group, position⟩ := g
  obtain ⟨rfl, rfl, rfl, hgroup, hcurrent⟩ := h
  simp only [Format.groupSize] at hgroup hcurrent ⊢
  rw [GroupDecoder.switch, Format.groupSize]
  simp only
  split
  · obtain rfl : group = d.position / 50 := by omega
    cases d.selectors[d.position / 50]? <;> rfl
  · rename_i hne
    obtain rfl : group = d.position / 50 + 1 := by omega
    rw [hcurrent hne, Option.map_some]

/-- The counters give the symbol of the decoder, or its fault. -/
theorem Tracks.symbol (h : g.Tracks d) (r : BitReader) :
    (g.next r).1 = (Prod.fst <$> d.next) r := by
  rw [GroupDecoder.next, h.switch, Decoder.next]
  cases d.selectors[d.position / Format.groupSize]? with
  | none => rfl
  | some selector =>
    simp only [Option.map_some]
    cases d.tables[selector]? with
    | none => rfl
    | some table => simp only [map_bind, map_pure, bind_pure]

theorem Tracks.next (h : g.Tracks d) (r : BitReader)
    (hselector : d.selectors[d.position / Format.groupSize]? = some selector) :
    (g.next r).2.Tracks (d.skip 1) := by
  rw [GroupDecoder.next, h.switch, hselector, Option.map_some]
  refine ⟨rfl, rfl, rfl, ?_, fun hne => ?_⟩
  · simp only [Decoder.skip, Format.groupSize]
    omega
  · have hgroup : (d.position + 1) / Format.groupSize = d.position / Format.groupSize := by
      simp only [Decoder.skip, Format.groupSize] at hne ⊢
      omega
    simp only [Decoder.skip, hgroup, hselector]

theorem Tracks.next_eq_self (h : g.Tracks d) (r : BitReader)
    (hselector : d.selectors[d.position / Format.groupSize]? = none) : (g.next r).2 = g := by
  rw [GroupDecoder.next, h.switch, hselector, Option.map_none]

/-- After calls with any readers the counters are as far as the symbols go. -/
theorem Tracks.after (h : g.Tracks d) (hgroups : d.Groups groups) (readers : List BitReader) :
    (g.after readers).Tracks
      (d.skip (min readers.length (Format.groupSize * groups.length))) := by
  induction readers using List.reverseRecOn with
  | nil => simpa [GroupDecoder.after, Decoder.skip] using h
  | append_singleton readers r ih =>
    have hcall : g.after (readers ++ [r]) = ((g.after readers).next r).2 := by
      rw [GroupDecoder.after, List.foldl_append]
      rfl
    rw [hcall, List.length_append, List.length_singleton]
    rcases Nat.lt_or_ge readers.length (Format.groupSize * groups.length) with hlt | hge
    · rw [Nat.min_eq_left (Nat.le_of_lt hlt)] at ih
      rw [Nat.min_eq_left hlt]
      have hgroup : readers.length / Format.groupSize < groups.length :=
        Nat.div_lt_of_lt_mul hlt
      obtain ⟨selector, hselector, -⟩ :=
        hgroups.uses readers.length _ (List.getElem?_eq_getElem hgroup)
      exact ih.next r hselector
    · rw [Nat.min_eq_right hge] at ih
      rw [Nat.min_eq_right (Nat.le_succ_of_le hge),
        ih.next_eq_self r (hgroups.size _ (Nat.le_refl _))]
      exact ih

/-- Whatever readers the calls before were made with, and whether or not they were at fault, a call
reads with the table of the code lengths of its group; behind the last group it takes no bits. -/
structure Follows (g : GroupDecoder) (groups : List (List Nat)) : Prop where
  symbol : ∀ readers lengths r, groups[readers.length / Format.groupSize]? = some lengths →
    ((g.after readers).next r).1 = (Table.ofLengths lengths).decode r
  exhausted : ∀ readers r, Format.groupSize * groups.length ≤ readers.length →
    ((g.after readers).next r).1 = .error (.stream .selectorsExhausted) r

theorem Tracks.follows (h : g.Tracks d) (hgroups : d.Groups groups) : g.Follows groups := by
  refine ⟨fun readers lengths r hlengths => ?_, fun readers r hlength => ?_⟩
  · have hgroup := (List.getElem?_eq_some_iff.1 hlengths).1
    have hlt : readers.length < Format.groupSize * groups.length := by
      rw [Nat.mul_comm]
      exact (Nat.div_lt_iff_lt_mul (by decide)).1 hgroup
    have htracks := h.after hgroups readers
    rw [Nat.min_eq_left (Nat.le_of_lt hlt)] at htracks
    rw [htracks.symbol, Decoder.symbol_of_uses (hgroups.uses _ lengths hlengths)]
  · have htracks := h.after hgroups readers
    rw [Nat.min_eq_right hlength] at htracks
    rw [htracks.symbol, Decoder.next_of_exhausted (hgroups.size _ (Nat.le_refl _))]
    rfl

end GroupDecoder

/-! ## From the head of a block to its symbols -/

namespace Setup

variable {setup : Setup} {tables alphabet : Nat} {named : List Nat}

/-- If its selectors name tables, a setup gives a decoder whose groups have the code lengths of the
tables named. -/
theorem exists_decoder (hselectors : setup.selectors.toList = named)
    (hnamed : ∀ table ∈ named, table < setup.tables) (htables : setup.tables ≤ Format.maxTables)
    (halphabet : setup.alphabet ≤ Format.maxAlphabet) :
    ∃ d, setup.decoder = .ok d ∧ d.position = 0 ∧ d.Groups (named.map setup.tableLengths) := by
  refine ⟨_, if_pos ⟨htables, .inr halphabet⟩, rfl, fun k lengths hlengths => ?_, fun k hk => ?_⟩
  · rw [List.getElem?_map, Option.map_eq_some_iff] at hlengths
    obtain ⟨table, htable, rfl⟩ := hlengths
    have hlt := hnamed table (List.mem_of_getElem? htable)
    rw [← hselectors, Array.getElem?_toList] at htable
    refine ⟨table, ?_, ?_⟩
    · simpa only [Decoder.skip, Nat.zero_add] using htable
    · simp only [Decoder.skip, List.getElem?_toArray, List.getElem?_map,
        List.getElem?_range hlt, Option.map_some]
  · have hsize : setup.selectors.size = named.length := by rw [← hselectors, Array.length_toList]
    rw [List.length_map, Nat.mul_comm, ← hsize] at hk
    simp only [Decoder.skip, Nat.zero_add]
    exact Array.getElem?_eq_none ((Nat.le_div_iff_mul_le (by decide)).2 hk)

/-- Positions that are accepted store tables only, and the positions written for a list of tables
store that list. Then, whatever the code lengths are and whatever readers the calls are made with,
symbol `k` is read with the table named at `k / 50`; a call behind the last group is at fault and
takes no bits. This holds for the decoder that divides and for the one that counts. -/
theorem selectors_followed
    (htables : Format.minTables ≤ tables ∧ tables ≤ Format.maxTables)
    (halphabet : alphabet ≤ Format.maxAlphabet) (hnamed : ∀ table ∈ named, table < tables) :
    (∀ count positions after,
      ((start tables alphabet).setSelectorCount count).setSelectors 0 positions = .ok after →
        ∀ selector ∈ after.selectors, selector < tables) ∧
    ∃ setup, ((start tables alphabet).setSelectorCount named.length).setSelectors 0
        (MoveToFront.encode (MoveToFront.ofSize tables).toList (named.map UInt8.ofNat)) =
          .ok setup ∧
      setup.selectors.toList = named ∧
      ∀ lengths, ∃ d, { setup with lengths }.decoder = .ok d ∧
        d.Follows (named.map { setup with lengths }.tableLengths) ∧
        d.grouped.Follows (named.map { setup with lengths }.tableLengths) := by
  have hpos : 0 < tables := Nat.lt_of_lt_of_le (by decide) htables.1
  have hle : tables ≤ 256 := Nat.le_trans htables.2 (by decide)
  refine ⟨fun count positions after hset selector hselector => ?_, ?_⟩
  · obtain ⟨hafter, heq⟩ := (named_start count hpos hle).setSelectors hset
    exact Nat.lt_of_lt_of_eq (hafter.selectors selector hselector) heq
  · obtain ⟨setup, hset, hselectors, hsame, hsame'⟩ := setSelectors_encode hle hnamed
    refine ⟨setup, hset, hselectors, fun lengths => ?_⟩
    have hstored : { setup with lengths }.selectors.toList = named := hselectors
    obtain ⟨d, hd, hposition, hgroups⟩ := exists_decoder hstored (hsame.symm ▸ hnamed)
      (hsame.symm ▸ htables.2) (hsame'.symm ▸ halphabet)
    exact ⟨d, hd, hgroups.follows, (GroupDecoder.tracks_grouped hposition).follows hgroups⟩

/-- Two tables that take turns: the other table stands behind the first each time. -/
theorem selectors_followed_in_turn :
    (Format.minTables ≤ 2 ∧ 2 ≤ Format.maxTables) ∧ 3 ≤ Format.maxAlphabet ∧
      (∀ table ∈ [1, 0, 1], table < 2) ∧
      ∃ setup, ((start 2 3).setSelectorCount 3).setSelectors 0 [1, 1, 1] = .ok setup ∧
        setup.selectors.toList = [1, 0, 1] ∧
        ∀ lengths, ∃ d, { setup with lengths }.decoder = .ok d ∧
          d.Follows ([1, 0, 1].map { setup with lengths }.tableLengths) ∧
          d.grouped.Follows ([1, 0, 1].map { setup with lengths }.tableLengths) := by
  refine ⟨by decide, by decide, by decide, ?_⟩
  have hpositions : MoveToFront.encode (MoveToFront.ofSize 2).toList
      ([1, 0, 1].map UInt8.ofNat) = [1, 1, 1] := by decide +kernel
  rw [← hpositions]
  exact (@selectors_followed 2 3 [1, 0, 1] (by decide) (by decide) (by decide)).2

end Setup

end Bunzip.Huffman
