import Bunzip.Cli.OutputName
import Mathlib.Data.List.TakeWhile

/-!
# Where outputs go

A path names a file if its last component is an ordinary name; behind the name there may be
separators and single dots (`FilePath.Names`). The path of the output should name another file in
the same directory (`FilePath.SafeTarget`). It does, but for names that are dots with an extension,
and for paths with something behind a name that `.out` is put to (`safeTarget_outputName_iff`).
-/

namespace Bunzip.Cli

/-! ## Parts of a path -/

/-- `last` is what stands behind the last slash of a path, and `front` what stands before, the slash
included. -/
structure Splits (path front last : List Char) : Prop where
  eq_append : path = front ++ last
  no_slash : '/' ∉ last
  front_ends : front = [] ∨ ∃ before, front = before ++ ['/']

theorem exists_splits (path : List Char) : ∃ front last, Splits path front last := by
  induction path with
  | nil => exact ⟨[], [], rfl, List.not_mem_nil, .inl rfl⟩
  | cons c path ih =>
    obtain ⟨front, last, rfl, hlast, hfront⟩ := ih
    by_cases hc : c = '/'
    · refine ⟨c :: front, last, rfl, hlast, .inr ?_⟩
      rcases hfront with rfl | ⟨before, rfl⟩
      · exact ⟨[], by rw [hc]; rfl⟩
      · exact ⟨c :: before, rfl⟩
    rcases hfront with rfl | ⟨before, rfl⟩
    · exact ⟨[], c :: last, rfl, by simp [hlast, Ne.symm hc], .inl rfl⟩
    · exact ⟨c :: (before ++ ['/']), last, rfl, hlast, .inr ⟨c :: before, rfl⟩⟩

namespace Splits

variable {path front last : List Char}

theorem trim_eq (h : Splits path front last) (hempty : last ≠ []) (hdot : last ≠ ['.']) :
    FilePath.trim path = path := by
  obtain ⟨rfl, hslash, -⟩ := h
  obtain ⟨c, rest, hreverse⟩ := List.exists_cons_of_ne_nil (mt List.reverse_eq_nil_iff.1 hempty)
  have hnot : '/' ∉ c :: rest := by rwa [← hreverse, List.mem_reverse]
  have hsame : FilePath.trimReversed (front ++ last).reverse = (front ++ last).reverse := by
    rw [List.reverse_append, hreverse, FilePath.trimReversed.eq_def]
    split
    · rename_i heq
      obtain ⟨rfl, htail⟩ := List.cons.inj heq
      cases rest with
      | nil => exact absurd (by simpa using congrArg List.reverse hreverse) hdot
      | cons d rest => exact absurd (by simp [(List.cons.inj htail).1]) hnot
    · rename_i heq
      exact absurd (by simp [(List.cons.inj heq).1]) hnot
    · rfl
  rw [FilePath.trim, hsame, List.reverse_reverse]

/-- The last component of a path is its last part, unless that stands for a directory. -/
theorem lastComponent_eq (h : Splits path front last) (hempty : last ≠ []) (hdot : last ≠ ['.']) :
    FilePath.lastComponent path = (last, front) := by
  have htrim := h.trim_eq hempty hdot
  obtain ⟨rfl, hslash, hfront⟩ := h
  have hall : ∀ c ∈ last.reverse, (fun c : Char => decide (c ≠ '/')) c = true := by
    intro c hc
    refine decide_eq_true fun heq => hslash ?_
    exact heq ▸ List.mem_reverse.1 hc
  rw [FilePath.lastComponent, htrim, List.reverse_append, List.takeWhile_append_of_pos hall,
    List.dropWhile_append_of_pos hall]
  rcases hfront with rfl | ⟨before, rfl⟩
  · simp
  · simp

end Splits

namespace FilePath

variable {path front name start ending trailing output other : List Char}

/-! ## Behind the name -/

/-- What may stand behind the name of a file: separators, some of them with a dot. -/
inductive Trailing : List Char → Prop
  | nil : Trailing []
  | slash {rest : List Char} (h : Trailing rest) : Trailing ('/' :: rest)
  | dot {rest : List Char} (h : Trailing rest) : Trailing ('/' :: '.' :: rest)

namespace Trailing

theorem append {back : List Char} (h : Trailing trailing) (hback : Trailing back) :
    Trailing (trailing ++ back) := by
  induction h with
  | nil => exact hback
  | slash _ ih => exact .slash ih
  | dot _ ih => exact .dot ih

theorem take (h : Trailing trailing) (count : Nat) : Trailing (trailing.take count) := by
  induction h generalizing count with
  | nil =>
    rw [List.take_nil]
    exact .nil
  | slash _ ih =>
    cases count with
    | zero => exact .nil
    | succ count => exact .slash (ih count)
  | dot _ ih =>
    match count with
    | 0 => exact .nil
    | 1 => exact .slash .nil
    | count + 2 => exact .dot (ih count)

theorem eq_nil_of_no_slash (h : Trailing trailing) (hslash : '/' ∉ trailing) : trailing = [] := by
  cases h with
  | nil => rfl
  | slash => exact absurd List.mem_cons_self hslash
  | dot => exact absurd List.mem_cons_self hslash

theorem trim_append (h : Trailing trailing) (path : List Char) :
    trim (path ++ trailing) = trim path := by
  have hreversed (before : List Char) :
      trimReversed (trailing.reverse ++ before) = trimReversed before := by
    induction h generalizing before with
    | nil => rfl
    | slash _ ih =>
      rw [List.reverse_cons, List.append_assoc, ih, List.singleton_append, trimReversed]
    | dot _ ih =>
      rw [List.reverse_cons, List.reverse_cons, List.append_assoc, List.append_assoc, ih]
      rfl
  rw [trim, List.reverse_append, hreversed, trim]

end Trailing

theorem exists_trailing (path : List Char) : ∃ trailing, Trailing trailing ∧
    path = trim path ++ trailing := by
  have hreversed (reversed : List Char) : ∃ trailing, Trailing trailing ∧
      reversed = trailing.reverse ++ trimReversed reversed := by
    fun_induction trimReversed reversed with
    | case1 rest ih =>
      obtain ⟨trailing, htrailing, hrest⟩ := ih
      refine ⟨trailing ++ ['/', '.'], htrailing.append (.dot .nil), ?_⟩
      simpa using hrest
    | case2 rest ih =>
      obtain ⟨trailing, htrailing, hrest⟩ := ih
      refine ⟨trailing ++ ['/'], htrailing.append (.slash .nil), ?_⟩
      simpa using hrest
    | case3 => exact ⟨[], .nil, rfl⟩
  obtain ⟨trailing, htrailing, hpath⟩ := hreversed path.reverse
  refine ⟨trailing, htrailing, ?_⟩
  rw [trim]
  simpa using congrArg List.reverse hpath

/-! ## Names -/

theorem isFileName_iff : isFileName name = true ↔ name ≠ [] ∧ name ≠ ['.'] ∧ name ≠ ['.', '.'] := by
  simp [isFileName, and_assoc]

/-- A path names a file in the directory `front`. -/
structure Names (path front name trailing : List Char) : Prop where
  eq_append : path = front ++ name ++ trailing
  splits : Splits (front ++ name) front name
  ordinary : isFileName name = true
  trailing : Trailing trailing

theorem Names.lastComponent_eq (h : Names path front name trailing) :
    lastComponent path = (name, front) := by
  obtain ⟨hempty, hdot, -⟩ := isFileName_iff.1 h.ordinary
  rw [h.eq_append, lastComponent, h.trailing.trim_append, ← h.splits.lastComponent_eq hempty hdot]
  rfl

theorem Names.fileName_eq (h : Names path front name trailing) : fileName? path = some name := by
  simp only [fileName?, h.lastComponent_eq, h.ordinary, if_pos]

theorem splits_trim (path : List Char) :
    Splits (trim path) (lastComponent path).2 (lastComponent path).1 := by
  simp only [lastComponent]
  generalize hreversed : (trim path).reverse = reversed
  refine ⟨?_, fun hslash => ?_, ?_⟩
  · rw [← List.reverse_append, List.takeWhile_append_dropWhile, ← hreversed, List.reverse_reverse]
  · simpa using List.mem_takeWhile_imp (List.mem_reverse.1 hslash)
  · cases hfront : reversed.dropWhile fun c => decide (c ≠ '/') with
    | nil => exact .inl rfl
    | cons c rest =>
      have hhead := List.head_dropWhile_not (fun c : Char => decide (c ≠ '/'))
        (by rw [hfront]; exact List.cons_ne_nil _ _)
      simp only [hfront, List.head_cons] at hhead
      obtain rfl : c = '/' := by simpa using hhead
      exact .inr ⟨rest.reverse, List.reverse_cons⟩

theorem exists_names (h : fileName? path = some name) :
    ∃ trailing, Names path (lastComponent path).2 name trailing := by
  obtain ⟨trailing, htrailing, hpath⟩ := exists_trailing path
  have hsplits := splits_trim path
  unfold fileName? at h
  simp only at h
  split at h
  · rename_i hname
    cases h
    refine ⟨trailing, ?_, hsplits.eq_append ▸ hsplits, hname, htrailing⟩
    rw [← hsplits.eq_append, ← hpath]
  · cases h

theorem names_of_splits (h : Splits path front other) (hname : isFileName other = true) :
    Names path front other [] := by
  refine ⟨?_, h.eq_append ▸ h, hname, .nil⟩
  rw [List.append_nil, ← h.eq_append]

/-! ## Targets -/

/-- The output is another file in the directory of the file that the path names. -/
def SafeTarget (path output : List Char) : Prop :=
  ∃ name other, fileName? path = some name ∧ fileName? output = some other ∧
    (lastComponent output).2 = (lastComponent path).2 ∧ other ≠ name

theorem Names.safeTarget_iff {front' trailing' : List Char} (h : Names path front name trailing)
    (houtput : Names output front' other trailing') :
    SafeTarget path output ↔ front' = front ∧ other ≠ name := by
  simp [SafeTarget, h.fileName_eq, houtput.fileName_eq, h.lastComponent_eq,
    houtput.lastComponent_eq]

/-- In the directory of the file an output is safe if its last part is another ordinary name. -/
theorem Names.safeTarget_iff_of_splits (h : Names path front name trailing)
    (hsplits : Splits output front other) :
    SafeTarget path output ↔ isFileName other = true ∧ other ≠ name := by
  by_cases hfile : isFileName other = true
  · rw [h.safeTarget_iff (names_of_splits hsplits hfile)]
    simp [hfile]
  · refine iff_of_false (fun hsafe => hfile ?_) fun hother => hfile hother.1
    obtain ⟨-, actual, -, hactual, hfront, -⟩ := hsafe
    obtain ⟨trailing', hnames⟩ := exists_names hactual
    rw [hfront, h.lastComponent_eq] at hnames
    -- what would stand behind the name has no slash
    have hother : other = actual ++ trailing' := by
      have heq := hsplits.eq_append.symm.trans hnames.eq_append
      rw [List.append_assoc] at heq
      exact List.append_cancel_left heq
    obtain rfl := hnames.trailing.eq_nil_of_no_slash fun hmem =>
      hsplits.no_slash (hother ▸ List.mem_append_right _ hmem)
    rw [hother, List.append_nil]
    exact hnames.ordinary

/-! ## Extensions -/

theorem splitExtension_append (hending : '.' ∉ ending) :
    splitExtension (start ++ '.' :: ending) =
      if start = [] then (start ++ '.' :: ending, none) else (start, some ending) := by
  have hall : ∀ c ∈ ending.reverse, (fun c : Char => decide (c ≠ '.')) c = true := by
    intro c hc
    refine decide_eq_true fun heq => hending ?_
    exact heq ▸ List.mem_reverse.1 hc
  have hback : ((start ++ '.' :: ending).reverse.takeWhile (· ≠ '.')).reverse = ending := by
    rw [List.reverse_append, List.reverse_cons, List.append_assoc,
      List.takeWhile_append_of_pos hall]
    simp
  have hlength : (start ++ '.' :: ending).length - ending.length - 1 = start.length := by
    rw [List.length_append, List.length_cons]
    omega
  simp only [splitExtension, hback, hlength, List.take_left]
  by_cases hstart : start = []
  · simp [hstart]
  · simp [hstart]

theorem splitExtension_eq_some (h : (splitExtension name).2 = some ending) :
    ∃ start, name = start ++ '.' :: ending ∧ start ≠ [] ∧ '.' ∉ ending := by
  have hdot : '.' ∈ name := by
    by_contra hdot
    simp [splitExtension, hdot] at h
  obtain ⟨back, front, hreverse, hback⟩ := List.eq_append_cons_of_mem (List.mem_reverse.2 hdot)
  have hname : name = front.reverse ++ '.' :: back.reverse := by
    simpa using congrArg List.reverse hreverse
  rw [← List.mem_reverse] at hback
  rw [hname, splitExtension_append hback] at h
  by_cases hstart : front.reverse = []
  · rw [if_pos hstart] at h
    cases h
  · rw [if_neg hstart] at h
    cases h
    exact ⟨front.reverse, hname, hstart, hback⟩

/-- A path without as many characters as the extension has ends with the dot of the extension, if
nothing stands behind the name, else with an extension again and something behind it. -/
theorem Names.exists_take (h : Names path front (start ++ '.' :: ending) trailing)
    (hending : ending ≠ []) :
    ∃ kept rest, path.take (path.length - ending.length) = front ++ (start ++ '.' :: kept) ++ rest ∧
      kept ⊆ ending ∧ Trailing rest ∧ (kept = [] ↔ trailing = []) ∧
      (trailing = [] → rest = []) := by
  refine ⟨ending.take trailing.length, trailing.take (trailing.length - ending.length), ?_,
    List.take_subset _ _, h.trailing.take _, ?_, fun hnil => ?_⟩
  · have hpath : path = (front ++ start ++ ['.']) ++ (ending ++ trailing) := by
      simp [h.eq_append]
    have hlength : path.length - ending.length =
        (front ++ start ++ ['.']).length + trailing.length := by
      rw [hpath]
      simp only [List.length_append]
      omega
    rw [hlength, hpath, List.take_length_add_append, List.take_append]
    simp
  · rw [List.take_eq_nil_iff, List.length_eq_zero_iff, or_iff_left hending]
  · rw [hnil, List.take_nil]

/-- What becomes of the extension of a path. What stood behind the name is gone. -/
theorem Names.replaceExtension_eq (h : Names path front (start ++ '.' :: ending) trailing)
    (hstart : start ≠ []) (hdot : '.' ∉ ending) (hending : ending ≠ [])
    (replacement : List Char) :
    replaceExtension path ending replacement =
      front ++ if start = ['.'] ∧ trailing = [] then ['.', '.']
        else start ++ if replacement = [] then [] else '.' :: replacement := by
  obtain ⟨kept, rest, htake, hkept, hrest, hnil, hend⟩ := h.exists_take hending
  have hsplits : Splits (front ++ (start ++ '.' :: kept)) front (start ++ '.' :: kept) := by
    refine ⟨rfl, fun hmem => h.splits.no_slash ?_, h.splits.front_ends⟩
    simp only [List.mem_append, List.mem_cons] at hmem ⊢
    exact hmem.imp_right (Or.imp_right fun hmem => hkept hmem)
  rw [replaceExtension, htake]
  by_cases hdots : start = ['.'] ∧ trailing = []
  · -- two dots are not a name, so the path stays as it is
    obtain rfl := hdots.1
    obtain rfl := hnil.2 hdots.2
    have hcomponent := hsplits.lastComponent_eq (by simp) (by simp)
    rw [hend hdots.2, List.append_nil, if_pos hdots, setExtension, fileName?, hcomponent]
    rfl
  · have hordinary : isFileName (start ++ '.' :: kept) = true := by
      refine isFileName_iff.2 ⟨by simp, fun hone => ?_, fun htwo => hdots ?_⟩
      · simp [List.append_eq_singleton_iff, hstart] at hone
      · obtain ⟨c, back, rfl⟩ := List.exists_cons_of_ne_nil hstart
        obtain ⟨rfl, hback⟩ := List.cons.inj htwo
        obtain ⟨rfl, hkept⟩ : back = [] ∧ kept = [] := by
          simpa [List.append_eq_singleton_iff] using hback
        exact ⟨rfl, hnil.1 hkept⟩
    have hnames : Names (front ++ (start ++ '.' :: kept) ++ rest) front (start ++ '.' :: kept)
        rest := ⟨rfl, hsplits, hordinary, hrest⟩
    have hsplit : splitExtension (start ++ '.' :: kept) = _ :=
      splitExtension_append fun hmem => hdot (hkept hmem)
    rw [if_neg hstart] at hsplit
    rw [setExtension, hnames.fileName_eq]
    simp only [hnames.lastComponent_eq, hsplit]
    rw [if_neg hdots, List.append_assoc]

/-- Whether the output of a file is safe, from the name and what stands behind it: a dot or two that
lose their extension are no name, and `.out` must be put to the name itself. -/
def keepsName (name trailing : List Char) : Bool :=
  match splitExtension name with
  | (_, none) => trailing = []
  | (start, some ending) =>
    if ending = "bz2".toList ∨ ending = "bz".toList then start ≠ ['.'] && start ≠ ['.', '.']
    else if ending = "tbz2".toList ∨ ending = "tbz".toList then start ≠ ['.'] || trailing ≠ []
    else trailing = []

theorem isFileName_of_length (h : 2 < name.length) : isFileName name = true := by
  refine isFileName_iff.2 ⟨?_, ?_, ?_⟩
  all_goals
    rintro rfl
    exact absurd h (by decide)

/-- An ending put to the path is put to the name if nothing stands behind it, else it makes a name
in another directory. -/
theorem Names.safeTarget_append_iff (h : Names path front name trailing) {ending : List Char}
    (hslash : '/' ∉ ending) (hlong : 2 < ending.length) :
    SafeTarget path (path ++ ending) ↔ trailing = [] := by
  by_cases hnil : trailing = []
  · refine iff_of_true ?_ hnil
    have hsplits : Splits (path ++ ending) front (name ++ ending) := by
      refine ⟨?_, ?_, h.splits.front_ends⟩
      · rw [h.eq_append, hnil, List.append_nil, List.append_assoc]
      · simp [h.splits.no_slash, hslash]
    rw [h.safeTarget_iff_of_splits hsplits]
    refine ⟨isFileName_of_length ?_, fun heq => ?_⟩
    · rw [List.length_append]
      omega
    · have hlength := congrArg List.length heq
      rw [List.length_append] at hlength
      omega
  · refine iff_of_false ?_ hnil
    obtain ⟨before, last, hback⟩ := exists_splits trailing
    have hbefore : before ≠ [] := by
      rintro rfl
      exact hnil (h.trailing.eq_nil_of_no_slash (hback.eq_append ▸ hback.no_slash))
    have hsplits : Splits (path ++ ending) (front ++ name ++ before) (last ++ ending) := by
      refine ⟨?_, by simp [hback.no_slash, hslash], ?_⟩
      · rw [h.eq_append, hback.eq_append]
        simp
      · obtain ⟨rest, hrest⟩ := hback.front_ends.resolve_left hbefore
        exact .inr ⟨front ++ name ++ rest, by simp [hrest]⟩
    have hnames := names_of_splits hsplits (isFileName_of_length (by
      rw [List.length_append]
      omega))
    rw [h.safeTarget_iff hnames]
    rintro ⟨hfront, -⟩
    have hlength := congrArg List.length hfront
    have hpos := List.length_pos_iff.2 hbefore
    simp only [List.length_append] at hlength
    omega

/-- With another extension a path keeps a safe target if what is left is a name. -/
theorem Names.safeTarget_replaceExtension_iff
    (h : Names path front (start ++ '.' :: ending) trailing) (hstart : start ≠ [])
    (hdot : '.' ∉ ending) (hending : ending ≠ []) {replacement : List Char}
    (hslash : '/' ∉ replacement) (hne : replacement ≠ ending) :
    SafeTarget path (replaceExtension path ending replacement) ↔
      ¬ (start = ['.'] ∧ trailing = []) ∧
        isFileName (start ++ if replacement = [] then [] else '.' :: replacement) = true := by
  rw [h.replaceExtension_eq hstart hdot hending]
  have hstartSlash : '/' ∉ start := fun hmem => h.splits.no_slash (List.mem_append_left _ hmem)
  have hother : '/' ∉ start ++ if replacement = [] then [] else '.' :: replacement := by
    split <;> simp [hstartSlash, hslash]
  have hdiffers : start ++ (if replacement = [] then [] else '.' :: replacement) ≠
      start ++ '.' :: ending := by
    split <;> simp [hne]
  by_cases hdots : start = ['.'] ∧ trailing = []
  · rw [if_pos hdots, h.safeTarget_iff_of_splits ⟨rfl, by decide, h.splits.front_ends⟩]
    simp [hdots, isFileName]
  · rw [if_neg hdots, h.safeTarget_iff_of_splits ⟨rfl, hother, h.splits.front_ends⟩]
    simp only [hdots, not_false_eq_true, true_and, and_iff_left hdiffers]

/-- What stands behind the name of the file. -/
def behind (path : List Char) : List Char := path.drop (trim path).length

theorem Names.behind_eq (h : Names path front name trailing) : behind path = trailing := by
  obtain ⟨hempty, hdot, -⟩ := isFileName_iff.1 h.ordinary
  rw [behind, h.eq_append, h.trailing.trim_append, h.splits.trim_eq hempty hdot, List.drop_left]

end FilePath

open FilePath

/-- The target is safe exactly if a name is kept. -/
theorem safeTarget_outputName_iff {path : String} {name : List Char}
    (h : fileName? path.toList = some name) :
    SafeTarget path.toList (outputName path).toList ↔
      keepsName name (behind path.toList) = true := by
  obtain ⟨trailing, hnames⟩ := exists_names h
  have happend : SafeTarget path.toList (path ++ ".out").toList ↔ trailing = [] := by
    rw [String.toList_append]
    exact hnames.safeTarget_append_iff (by decide) (by decide)
  have hextension : extension? path.toList = (splitExtension name).2 := by
    rw [extension?, h, Option.bind_some]
  rw [hnames.behind_eq]
  unfold outputName
  simp only [hextension]
  -- the cases of `outputName`
  cases hsome : (splitExtension name).2 with
  | none =>
    have hsplit : splitExtension name = ((splitExtension name).1, none) := by rw [← hsome]
    simp only [keepsName]
    rw [hsplit, happend]
    simp
  | some ending =>
    obtain ⟨start, rfl, hstart, hdot⟩ := splitExtension_eq_some hsome
    have hsplit : splitExtension (start ++ '.' :: ending) = _ := splitExtension_append hdot
    rw [if_neg hstart] at hsplit
    have hends (text : String) : String.ofList ending = text ↔ ending = text.toList := by
      rw [← String.toList_inj, String.toList_ofList]
    simp only [keepsName, hsplit, hends]
    by_cases hbz : ending = "bz2".toList ∨ ending = "bz".toList
    · have hending : ending ≠ [] := by rcases hbz with rfl | rfl <;> decide
      rw [if_pos hbz, if_pos hbz, String.toList_ofList,
        hnames.safeTarget_replaceExtension_iff hstart hdot hending (by decide) hending.symm]
      simp only [if_pos, List.append_nil, isFileName_iff, Bool.and_eq_true, decide_eq_true_eq]
      constructor
      · rintro ⟨-, -, hone, htwo⟩
        exact ⟨hone, htwo⟩
      · rintro ⟨hone, htwo⟩
        exact ⟨fun hdots => hone hdots.1, hstart, hone, htwo⟩
    rw [if_neg hbz, if_neg hbz]
    by_cases htbz : ending = "tbz2".toList ∨ ending = "tbz".toList
    · have hending : ending ≠ [] := by rcases htbz with rfl | rfl <;> decide
      have hne : "tar".toList ≠ ending := by rcases htbz with rfl | rfl <;> decide
      have hordinary : isFileName (start ++ if "tar".toList = [] then [] else '.' :: "tar".toList) =
          true := isFileName_of_length (by simp)
      rw [if_pos htbz, if_pos htbz, String.toList_ofList,
        hnames.safeTarget_replaceExtension_iff hstart hdot hending (by decide) hne]
      simp only [hordinary, and_true, Bool.or_eq_true, decide_eq_true_eq]
      exact not_and_or
    · rw [if_neg htbz, if_neg htbz, happend]
      simp

end Bunzip.Cli
