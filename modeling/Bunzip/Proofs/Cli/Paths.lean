import Bunzip.Cli.FileTree
import Bunzip.Proofs.Cli.OutputName

/-!
# Paths of inputs and outputs

The output of a file never has the place of the file (`FileTree.output_ne_input`): its path differs
in the last part only, and does differ there (`outputDiffers_outputName`). Where the last part is an
ordinary name again, the output lies beside the file (`outputName_beside`). A path that leads to a
place leads there as well after a change that leaves all directories where they are
(`walk_of_directories`).
-/

namespace Bunzip.Cli

/-! ## Parts of a path -/

theorem slashParts_of_no_slash {part : List Char} (h : '/' ∉ part) : slashParts part = [part] := by
  induction part with
  | nil => rfl
  | cons c part ih =>
    rw [List.mem_cons, not_or] at h
    rw [slashParts, if_neg (Ne.symm h.1), ih h.2]

theorem slashParts_ne_nil (path : List Char) : slashParts path ≠ [] := by
  cases path with
  | nil => exact List.cons_ne_nil _ _
  | cons c path =>
    rw [slashParts]
    split
    · exact List.cons_ne_nil _ _
    · split <;> exact List.cons_ne_nil _ _

theorem slashParts_append_slash (before after : List Char) :
    slashParts (before ++ '/' :: after) = slashParts before ++ slashParts after := by
  induction before with
  | nil => simp [slashParts]
  | cons c before ih =>
    rw [List.cons_append, slashParts, slashParts, ih]
    split
    · rfl
    · obtain ⟨part, parts, hparts⟩ := List.exists_cons_of_ne_nil (slashParts_ne_nil before)
      rw [hparts]
      rfl

namespace Splits

variable {path front last : List Char}

theorem exists_parts (h : Splits path front last) : ∃ parts : List (List Char),
    ∀ other, '/' ∉ other → slashParts (front ++ other) = parts ++ [other] := by
  rcases h.front_ends with rfl | ⟨before, rfl⟩
  · exact ⟨[], fun other hother => slashParts_of_no_slash hother⟩
  · refine ⟨slashParts before, fun other hother => ?_⟩
    rw [List.append_assoc, List.singleton_append, slashParts_append_slash,
      slashParts_of_no_slash hother]

theorem exists_names (h : Splits path front last) : ∃ names : List String,
    ∀ (other : String), '/' ∉ other.toList → ∀ file : String, file.toList = front ++ other.toList →
      pathNames file = names ++ [if other = "" then "." else other] := by
  obtain ⟨parts, hparts⟩ := h.exists_parts
  refine ⟨(parts.map String.ofList).filter (· ≠ ""), fun other hother file hfile => ?_⟩
  simp only [pathNames, hfile, hparts _ hother, List.map_append, List.map_cons, List.map_nil,
    String.ofList_toList, List.filter_append, List.getLast?_append, List.getLast?_singleton]
  by_cases hempty : other = ""
  · simp [hempty]
  · simp [hempty]

end Splits

/-! ## Names of outputs -/

/-- The path of the output differs from the path in the last part only, and does differ there. -/
def OutputDiffers (front last : List Char) (output : List Char) : Prop :=
  ∃ other : List Char, output = front ++ other ∧ '/' ∉ other ∧ other ≠ [] ∧ other ≠ last

section

variable {path front last : List Char}

theorem outputDiffers_replaceExtension (h : Splits path front last) (hempty : last ≠ [])
    (hdot : last ≠ ['.']) {ending replacement : List Char}
    (hending : FilePath.extension? path = some ending) (hne : ending ≠ replacement)
    (hsome : ending ≠ []) (hslash : '/' ∉ replacement) :
    OutputDiffers front last (FilePath.replaceExtension path ending replacement) := by
  rw [FilePath.extension?, FilePath.fileName?, h.lastComponent_eq hempty hdot] at hending
  obtain ⟨name, hname, hsplit⟩ := Option.bind_eq_some_iff.1 hending
  split at hname
  · rename_i hordinary
    cases hname
    obtain ⟨start, rfl, hstart, hdotless⟩ := FilePath.splitExtension_eq_some hsplit
    have hstartSlash : '/' ∉ start := fun hmem => h.no_slash (List.mem_append_left _ hmem)
    refine ⟨_, (FilePath.names_of_splits h hordinary).replaceExtension_eq hstart hdotless hsome
      replacement, ?_⟩
    by_cases hdots : start = ['.']
    · subst hdots
      exact ⟨by simp, by simp, by simpa using Ne.symm hsome⟩
    rw [if_neg fun hdots' => hdots hdots'.1]
    by_cases hnone : replacement = []
    · rw [if_pos hnone, List.append_nil]
      exact ⟨hstartSlash, hstart, by simp⟩
    · rw [if_neg hnone]
      exact ⟨by simp [hstartSlash, hslash], by simp, by simpa using Ne.symm hne⟩
  · cases hname

theorem outputDiffers_outputName {path : String} (h : Splits path.toList front last)
    (hempty : last ≠ []) (hdot : last ≠ ['.']) :
    OutputDiffers front last (outputName path).toList := by
  have happend : OutputDiffers front last (path ++ ".out").toList := by
    refine ⟨last ++ ".out".toList, ?_, by simp [h.no_slash], by simp, by simp⟩
    rw [String.toList_append, h.eq_append, List.append_assoc]
  unfold outputName
  dsimp only
  split
  · exact happend
  · rename_i extension hextension
    split
    · rename_i hbz
      have hne : extension ≠ [] := by
        rintro rfl
        exact absurd hbz (by decide)
      rw [String.toList_ofList]
      exact outputDiffers_replaceExtension h hempty hdot hextension hne hne List.not_mem_nil
    split
    · rename_i htbz
      rw [String.toList_ofList]
      refine outputDiffers_replaceExtension h hempty hdot hextension ?_ ?_ (by decide)
      · rintro rfl
        exact absurd htbz (by decide)
      · rintro rfl
        exact absurd htbz (by decide)
    · exact happend

end

/-! ## Places -/

namespace FileTree

variable {t t' : FileTree} {home place other : Place} {name : String} {names : List String}

theorem walk_append (t : FileTree) (place : Place) (front back : List String) :
    t.walk place (front ++ back) =
      match t.walk place front with
      | .error failure => .error failure
      | .ok mid => t.walk mid back := by
  induction front generalizing place with
  | nil => rfl
  | cons name names ih =>
    rw [List.cons_append, walk, walk]
    split
    · rfl
    · rfl
    by_cases hdot : name = "."
    · rw [if_pos hdot, if_pos hdot, ih]
    rw [if_neg hdot, if_neg hdot]
    by_cases hdots : name = ".."
    · rw [if_pos hdots, if_pos hdots, ih]
    rw [if_neg hdots, if_neg hdots]
    by_cases hlong : maxNameBytes < name.utf8ByteSize
    · rw [if_pos hlong, if_pos hlong]
    · rw [if_neg hlong, if_neg hlong, ih]

theorem place_of_walk_singleton (h : t.walk place [name] = .ok other) :
    t.find? place = some .directory ∧
      (name = "." ∧ other = place ∨ name = ".." ∧ other = place.dropLast ∨
        name ≠ "." ∧ name ≠ ".." ∧ other = place ++ [name]) := by
  rw [walk] at h
  split at h
  · cases h
  · cases h
  rename_i hdirectory
  refine ⟨hdirectory, ?_⟩
  split at h
  · rename_i hdot
    exact .inl ⟨hdot, (Except.ok.inj h).symm⟩
  split at h
  · rename_i hdots
    exact .inr (.inl ⟨hdots, (Except.ok.inj h).symm⟩)
  split at h
  · cases h
  · rename_i hdot hdots _
    exact .inr (.inr ⟨hdot, hdots, (Except.ok.inj h).symm⟩)

/-- A way leads on if all directories are where they were. -/
theorem walk_of_directories
    (h : ∀ place, t.find? place = some .directory → t'.find? place = some .directory)
    (hwalk : t.walk place names = .ok other) : t'.walk place names = .ok other := by
  induction names generalizing place with
  | nil => exact hwalk
  | cons name names ih =>
    rw [← List.singleton_append, walk_append] at hwalk ⊢
    cases hfirst : t.walk place [name] with
    | error failure => rw [hfirst] at hwalk; cases hwalk
    | ok mid =>
      rw [hfirst] at hwalk
      have hdirectory := (place_of_walk_singleton hfirst).1
      have hfirst' : t'.walk place [name] = .ok mid := by
        rw [← hfirst]
        simp only [walk, hdirectory, h place hdirectory]
      rw [hfirst']
      exact ih hwalk

theorem locate_of_directories
    (h : ∀ place, t.find? place = some .directory → t'.find? place = some .directory)
    {path : String} (hlocate : t.locate home path = .ok other) :
    t'.locate home path = .ok other := by
  unfold locate at hlocate ⊢
  split at hlocate
  · cases hlocate
  split at hlocate
  · cases hlocate
  · rename_i hempty hlong
    rw [if_neg hempty, if_neg hlong]
    exact walk_of_directories h hlocate

/-- Of two names in a directory, one of which is that of a file, each leads to its own place. -/
theorem ne_of_walk_singleton {mid input output : Place} {a b : String} {data : List UInt8}
    (hne : b ≠ a) (hinput : t.walk mid [a] = .ok input) (hfile : t.find? input = some (.file data))
    (houtput : t.walk mid [b] = .ok output) : output ≠ input := by
  rintro rfl
  obtain ⟨hdirectory, ha⟩ := place_of_walk_singleton hinput
  have hmid : output ≠ mid := by
    rintro rfl
    rw [hdirectory] at hfile
    cases hfile
  have hdrop (name : String) : mid ++ [name] ≠ mid.dropLast := by
    intro heq
    have hlength := congrArg List.length heq
    simp at hlength
    omega
  obtain ⟨-, hb⟩ := place_of_walk_singleton houtput
  rcases ha with ⟨-, rfl⟩ | ⟨rfl, rfl⟩ | ⟨-, -, rfl⟩
  · exact hmid rfl
  · rcases hb with ⟨-, heq⟩ | ⟨rfl, -⟩ | ⟨-, -, heq⟩
    · exact hmid heq
    · exact hne rfl
    · exact hdrop b heq.symm
  · rcases hb with ⟨-, heq⟩ | ⟨-, heq⟩ | ⟨-, -, heq⟩
    · exact hmid heq
    · exact hdrop a heq
    · exact hne (List.singleton_inj.1 (List.append_cancel_left heq)).symm

theorem isAbsolute_eq {front other : List Char} {file : String} (hslash : '/' ∉ other)
    (hfile : file.toList = front ++ other) : isAbsolute file = decide (front.head? = some '/') := by
  have hne : other.head? ≠ some '/' := fun hhead => hslash (List.mem_of_head? hhead)
  rw [isAbsolute, hfile]
  cases front with
  | nil => simp [hne]
  | cons c front => rfl

theorem walk_of_locate {file : String} (h : t.locate home file = .ok place) :
    t.walk (if isAbsolute file then [] else home) (pathNames file) = .ok place := by
  unfold locate at h
  split at h
  · cases h
  split at h
  · cases h
  · exact h

/-- A path that leads to a file has a last part that is no directory step. From the directory in
front of it that part leads to the file, and so does any other last part to the place that it leads
to behind the same front. -/
theorem exists_directory {path : String} {front last : List Char} {input : Place}
    {data : List UInt8} (hsplits : Splits path.toList front last)
    (hinput : t.locate home path = .ok input) (hfile : t.find? input = some (.file data)) :
    last ≠ [] ∧ last ≠ ['.'] ∧ ∃ directory,
      t.walk directory [String.ofList last] = .ok input ∧
      ∀ {other : List Char} {file : String} {place : Place}, '/' ∉ other → other ≠ [] →
        file.toList = front ++ other → t.locate home file = .ok place →
        t.walk directory [String.ofList other] = .ok place := by
  obtain ⟨names, hnames⟩ := hsplits.exists_names
  -- the way to the last part is the same for all of them
  have hway {other : List Char} {file : String} {place : Place} (hslash : '/' ∉ other)
      (hother : file.toList = front ++ other) (h : t.locate home file = .ok place) :
      ∃ mid, t.walk (if decide (front.head? = some '/') then [] else home) names = .ok mid ∧
        t.walk mid [if String.ofList other = "" then "." else String.ofList other] = .ok place := by
    have hwalk := walk_of_locate h
    have hother' : file.toList = front ++ (String.ofList other).toList := by
      rw [String.toList_ofList]
      exact hother
    rw [isAbsolute_eq hslash hother, hnames _ (by simpa using hslash) file hother',
      walk_append] at hwalk
    split at hwalk
    · cases hwalk
    · exact ⟨_, ‹_›, hwalk⟩
  have hname {part : List Char} (hpart : part ≠ []) :
      (if String.ofList part = "" then "." else String.ofList part) = String.ofList part :=
    if_neg fun heq => hpart (by simpa using congrArg String.toList heq)
  obtain ⟨directory, hdirectory, hlast⟩ := hway hsplits.no_slash hsplits.eq_append hinput
  have hdot : (if String.ofList last = "" then "." else String.ofList last) ≠ "." := by
    intro heq
    rw [heq] at hlast
    obtain ⟨hdirectory, ⟨-, rfl⟩ | ⟨hdots, -⟩ | ⟨hne, -⟩⟩ := place_of_walk_singleton hlast
    · rw [hdirectory] at hfile
      cases hfile
    · exact absurd hdots (by decide)
    · exact hne rfl
  have hempty : last ≠ [] := by
    rintro rfl
    exact hdot rfl
  refine ⟨hempty, ?_, directory, hname hempty ▸ hlast, fun hslash hsome hother hplace => ?_⟩
  · rintro rfl
    exact hdot rfl
  · obtain ⟨mid, hmid, hwalk⟩ := hway hslash hother hplace
    obtain rfl := Except.ok.inj (hdirectory.symm.trans hmid)
    exact hname hsome ▸ hwalk

/-- A file and its output have different places. -/
theorem output_ne_input {path : String} {input output : Place} {data : List UInt8}
    (hinput : t.locate home path = .ok input) (hfile : t.find? input = some (.file data))
    (houtput : t.locate home (outputName path) = .ok output) : output ≠ input := by
  obtain ⟨front, last, hsplits⟩ := exists_splits path.toList
  obtain ⟨hempty, hdot, directory, hlast, hway⟩ := exists_directory hsplits hinput hfile
  obtain ⟨other, hother, hslash, hsome, hdiffers⟩ := outputDiffers_outputName hsplits hempty hdot
  exact ne_of_walk_singleton (fun heq => hdiffers (by simpa using congrArg String.toList heq)) hlast
    hfile (hway hslash hsome hother houtput)

theorem place_of_isFileName {directory : Place} {part : List Char}
    (hpart : FilePath.isFileName part = true)
    (h : t.walk directory [String.ofList part] = .ok place) :
    place = directory ++ [String.ofList part] := by
  obtain ⟨-, hone, htwo⟩ := FilePath.isFileName_iff.1 hpart
  obtain ⟨-, ⟨hdot, -⟩ | ⟨hdots, -⟩ | ⟨-, -, hplace⟩⟩ := place_of_walk_singleton h
  · exact absurd (by simpa using congrArg String.toList hdot) hone
  · exact absurd (by simpa using congrArg String.toList hdots) htwo
  · exact hplace

/-- A safe target lies beside its file. -/
theorem output_beside {path : String} {input output : Place} {data : List UInt8}
    (hsafe : FilePath.SafeTarget path.toList (outputName path).toList)
    (hinput : t.locate home path = .ok input) (hfile : t.find? input = some (.file data))
    (houtput : t.locate home (outputName path) = .ok output) :
    ∃ directory a b, input = directory ++ [a] ∧ output = directory ++ [b] ∧ b ≠ a := by
  obtain ⟨front, last, hsplits⟩ := exists_splits path.toList
  obtain ⟨hempty, hdot, directory, hlast, hway⟩ := exists_directory hsplits hinput hfile
  obtain ⟨other, hother, hslash, hsome, hdiffers⟩ := outputDiffers_outputName hsplits hempty hdot
  have hordinary : FilePath.isFileName last = true := by
    obtain ⟨name, -, hname, -⟩ := hsafe
    rw [FilePath.fileName?, hsplits.lastComponent_eq hempty hdot] at hname
    by_contra hnot
    rw [if_neg hnot] at hname
    cases hname
  have houtputSplits : Splits (outputName path).toList front other :=
    ⟨hother, hslash, hsplits.front_ends⟩
  obtain ⟨hother', -⟩ := ((FilePath.names_of_splits hsplits hordinary).safeTarget_iff_of_splits
    houtputSplits).1 hsafe
  refine ⟨directory, _, _, place_of_isFileName hordinary hlast,
    place_of_isFileName hother' (hway hslash hsome hother houtput), fun heq => hdiffers ?_⟩
  simpa using congrArg String.toList heq

end FileTree

/-! ## Targets -/

open FilePath

/-- The output of a file that a path names is another file in the same directory exactly in these
cases: with `.bz2` or `.bz` if a dot or two are not all that stands before it; with `.tbz2` or
`.tbz` if not just one dot stands before it, or something stands behind the name; with any other
name if nothing stands behind it. Then the output of a file that is there lies beside it. -/
theorem outputName_beside {path : String} {name : List Char}
    (h : fileName? path.toList = some name) :
    (SafeTarget path.toList (outputName path).toList ↔
      keepsName name (behind path.toList) = true) ∧
    (keepsName name (behind path.toList) = true →
      ∀ (t : FileTree) (home input output : Place) (data : List UInt8),
        t.locate home path = .ok input → t.find? input = some (.file data) →
        t.locate home (outputName path) = .ok output →
        ∃ directory a b, input = directory ++ [a] ∧ output = directory ++ [b] ∧ b ≠ a) := by
  have hsafe := safeTarget_outputName_iff h
  exact ⟨hsafe, fun hkeeps t home input output data hinput hfile houtput =>
    t.output_beside (hsafe.2 hkeeps) hinput hfile houtput⟩

/-- A dot with an extension, with a directory step behind it; and a file in a directory. -/
theorem outputName_beside_step :
    SafeTarget "d.bz2/..tbz/.".toList (outputName "d.bz2/..tbz/.").toList ∧
      ∃ directory a b, (["d", "..x.tbz"] : Place) = directory ++ [a] ∧
        (["d", "..x.tar"] : Place) = directory ++ [b] ∧ b ≠ a :=
  ⟨(outputName_beside (show fileName? "d.bz2/..tbz/.".toList = some "..tbz".toList by decide)).1.2
      (by decide),
    (outputName_beside (show fileName? ".//d/..x.tbz".toList = some "..x.tbz".toList by decide)).2
      (by decide) ⟨[(["d"], .directory), (["d", "..x.tbz"], .file [])]⟩ [] _ _ [] rfl rfl rfl⟩

/-- Nothing is left of the name of a dot with an extension but two dots, the parent directory. -/
theorem outputName_parent :
    fileName? "..tbz2".toList = some "..tbz2".toList ∧ outputName "..tbz2" = ".." ∧
      ¬ SafeTarget "..tbz2".toList (outputName "..tbz2").toList := by
  have houtput : outputName "..tbz2" = ".." := by decide
  refine ⟨by decide, houtput, ?_⟩
  rw [houtput]
  rintro ⟨name, other, -, hother, -⟩
  cases hother

end Bunzip.Cli
