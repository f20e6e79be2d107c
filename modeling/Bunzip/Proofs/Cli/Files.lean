import Bunzip.Proofs.Cli.Decoding
import Bunzip.Proofs.Cli.Paths

/-!
# Files into files

What taking one file does to a tree. A step is refused and changes nothing, or it makes the output
and removes it again, or it writes the output and removes the file (`Step`, `fileStep_step`). So it
is careful: whatever it does, it touches nothing but the file and its output, and a file that fails
is kept as it was (`Step.careful`).
-/

namespace Bunzip.Cli

open Bunzip.Input

/-! ## Changes of a tree -/

namespace FileTree

variable {t created : FileTree} {home place : Place} {path : String}

theorem insert_insert (t : FileTree) (place : Place) (first second : Entry) :
    (t.insert place first).insert place second = t.insert place second := by
  simp [insert, erase, List.filter_filter]

theorem erase_insert (t : FileTree) (place : Place) (entry : Entry) :
    (t.insert place entry).erase place = t.erase place := by
  simp [insert, erase, List.filter_filter]

theorem erase_of_none (h : t.find? place = none) : t.erase place = t := by
  have hlookup : t.entries.lookup place = none := by
    unfold find? at h
    split at h
    · cases h
    · exact h
  have hall : ∀ entry ∈ t.entries, decide (entry.1 ≠ place) = true := by
    intro entry hmem
    have := List.lookup_eq_none_iff.1 hlookup entry hmem
    simpa using Ne.symm (by simpa using this)
  rw [erase, List.filter_eq_self.2 hall]

theorem ne_root (h : t.find? place ≠ some .directory) : place ≠ [] := by
  rintro rfl
  exact h rfl

theorem createFile_eq_ok_iff : t.createFile home path = .ok created ↔
    ∃ place, t.locate home path = .ok place ∧ t.find? place ≠ some .directory ∧
      created = t.insert place (.file []) := by
  unfold createFile
  constructor
  · intro h
    split at h
    · cases h
    · rename_i place hplace
      split at h
      · cases h
      · rename_i hnone
        exact ⟨place, hplace, hnone, (Except.ok.inj h).symm⟩
  · rintro ⟨place, hplace, hnone, rfl⟩
    rw [hplace]
    dsimp only
    split
    · contradiction
    · rfl

/-- Where no directory is replaced, paths lead to where they did. -/
theorem locate_insert {entry : Entry} (h : t.find? place ≠ some .directory) {file : String}
    {other : Place} (hother : t.locate home file = .ok other) :
    (t.insert place entry).locate home file = .ok other := by
  refine locate_of_directories (fun mid hmid => ?_) hother
  rw [find?_insert t (ne_root h), if_neg, hmid]
  rintro rfl
  exact h hmid

theorem lookup_eq_ok_iff {entry : Entry} : t.lookup home path = .ok (place, entry) ↔
    t.locate home path = .ok place ∧ t.find? place = some entry := by
  refine ⟨fun h => ?_, fun ⟨hplace, hentry⟩ => by simp only [lookup, hplace, hentry]⟩
  unfold lookup at h
  split at h
  · cases h
  rename_i found hfound
  split at h
  · cases h
  rename_i old hold
  obtain ⟨rfl, rfl⟩ := Prod.mk.inj (Except.ok.inj h)
  exact ⟨hfound, hold⟩

theorem lookupFile_eq_ok_iff {data : List UInt8} : t.lookupFile home path = .ok (place, data) ↔
    t.locate home path = .ok place ∧ t.find? place = some (.file data) := by
  refine ⟨fun h => ?_, fun ⟨hplace, hfile⟩ => by simp only [lookupFile, lookup, hplace, hfile]⟩
  unfold lookupFile at h
  split at h
  · cases h
  · cases h
  · rename_i found old hfound
    obtain ⟨rfl, rfl⟩ := Prod.mk.inj (Except.ok.inj h)
    exact lookup_eq_ok_iff.1 hfound

section

variable (hnone : t.find? place ≠ some .directory)
include hnone

theorem lookupFile_created (hplace : t.locate home path = .ok place) (data : List UInt8) :
    (t.insert place (.file data)).lookupFile home path = .ok (place, data) := by
  refine lookupFile_eq_ok_iff.2 ⟨locate_insert hnone hplace, ?_⟩
  rw [find?_insert t (ne_root hnone), if_pos rfl]

theorem appendFile_created (hplace : t.locate home path = .ok place) (data : Array UInt8) :
    (t.insert place (.file [])).appendFile home path data =
      .ok (t.insert place (.file data.toList)) := by
  simp only [appendFile, lookupFile_created hnone hplace, insert_insert, List.nil_append]

theorem removeFile_created (hplace : t.locate home path = .ok place) (data : List UInt8) :
    (t.insert place (.file data)).removeFile home path = .ok (t.erase place) := by
  simp only [removeFile, lookupFile_created hnone hplace, erase_insert]

theorem removeFile_other {other : Place} {file : String} {data plain : List UInt8}
    (hother : t.locate home file = .ok other) (hfile : t.find? other = some (.file data))
    (hne : place ≠ other) :
    (t.insert place (.file plain)).removeFile home file =
      .ok ((t.insert place (.file plain)).erase other) := by
  have hthere : (t.insert place (.file plain)).find? other = some (.file data) := by
    rw [find?_insert t (ne_root hnone), if_neg hne.symm, hfile]
  simp only [removeFile, lookupFile_eq_ok_iff.2 ⟨locate_insert hnone hother, hthere⟩]

end

end FileTree

/-! ## Actions on the tree -/

variable {α β : Type}

/-- The action depends on the tree and the directory that paths begin in, and changes nothing but
the tree. -/
def Local (act : StateM World α) : Prop :=
  ∃ f : FileTree → Place → α × FileTree, ∀ w : World,
    act w = ((f w.tree w.home).1, { w with tree := (f w.tree w.home).2 })

theorem local_pure (value : α) : Local (pure value : StateM World α) :=
  ⟨fun tree _ => (value, tree), fun _ => rfl⟩

theorem Local.bind {act : StateM World α} {next : α → StateM World β} (h : Local act)
    (hnext : ∀ value, Local (next value)) : Local (act >>= next) := by
  obtain ⟨f, hf⟩ := h
  choose g hg using hnext
  refine ⟨fun tree home => g (f tree home).1 (f tree home).2 home, fun w => ?_⟩
  show next (act w).1 (act w).2 = _
  rw [hf, hg]

theorem local_change (f : FileTree → Place → Except SystemError FileTree) :
    Local (World.change f) := by
  refine ⟨fun tree home => ((World.change f ⟨tree, home, [], #[], []⟩).1,
    (World.change f ⟨tree, home, [], #[], []⟩).2.tree), fun w => ?_⟩
  unfold World.change
  dsimp only
  cases f w.tree w.home <;> rfl

theorem local_openFile (path : String) : Local (Host.openFile (m := StateM World) path) :=
  ⟨fun tree home => (World.openFile ⟨tree, home, [], #[], []⟩ path, tree), fun _ => rfl⟩

theorem local_exists (path : String) : Local (Host.exists? (m := StateM World) path) :=
  ⟨fun tree home => (World.exists? ⟨tree, home, [], #[], []⟩ path, tree), fun _ => rfl⟩

theorem local_transfer (options : Options) (source : Source)
    {write : Array UInt8 → StateM World (Except SystemError Unit)}
    (h : ∀ data, Local (write data)) : Local (transfer options source write) := by
  refine (h _).bind fun result => ?_
  cases result with
  | error failure => exact local_pure _
  | ok written => exact local_pure _

variable {options : Options}

theorem local_transferToFile (options : Options) (source : Source) (path output : String) :
    Local (transferToFile (m := StateM World) options source path output) := by
  unfold transferToFile
  refine (local_exists _).bind fun found => ?_
  split
  · exact local_pure _
  refine (local_change _).bind fun created => ?_
  cases created with
  | error failure => exact local_pure _
  | ok made =>
    refine (local_transfer options source fun data => local_change _).bind fun outcome => ?_
    cases outcome with
    | broken => exact local_pure _
    | failed text => exact (local_change _).bind fun _ => local_pure _
    | done =>
      dsimp only
      split
      · exact local_pure _
      · refine (local_change _).bind fun removed => ?_
        cases removed <;> exact local_pure _

theorem local_takeFile (hmode : options.mode = .unzip) (houtput : options.output = .file)
    (path : String) : Local (takeFile (m := StateM World) options path) := by
  unfold takeFile
  refine (local_openFile path).bind fun opened => ?_
  cases opened with
  | error failure => exact local_pure _
  | ok source =>
    simp only [hmode, houtput]
    exact local_transferToFile options source path _

/-! ## One file -/

/-- What taking a file makes of a tree, and what becomes of the file. -/
def fileStep (options : Options) (home : Place) (tree : FileTree) (path : String) :
    FileTree × Outcome :=
  let (outcome, w) := takeFile (m := StateM World) options path ⟨tree, home, [], #[], []⟩
  (w.tree, outcome)

theorem takeFile_eq (hmode : options.mode = .unzip) (houtput : options.output = .file)
    (path : String) (w : World) :
    takeFile (m := StateM World) options path w = ((fileStep options w.home w.tree path).2,
      { w with tree := (fileStep options w.home w.tree path).1 }) := by
  obtain ⟨f, hf⟩ := local_takeFile hmode houtput path
  rw [fileStep, hf, hf]

/-- The output of a file can be made: the file is there, and the path of its output leads to a place
without a directory, and with nothing at all unless it may be replaced. -/
structure Ready (options : Options) (home : Place) (tree : FileTree) (path : String)
    (output : Place) : Prop where
  found : ∃ entry, tree.lookup home path = .ok entry
  place : tree.locate home (outputName path) = .ok output
  free : tree.find? output ≠ some .directory
  vacant : options.force = false → tree.find? output = none

/-- What a step can do. -/
inductive Step (options : Options) (home : Place) (tree : FileTree) (path : String) :
    FileTree → Outcome → Prop
  /-- The file is not there, or its output cannot be made: nothing changes. -/
  | refused (text : String) (h : ∀ output, ¬ Ready options home tree path output) :
      Step options home tree path tree (.failed text)
  /-- The file begins with no stream: the output that was made is removed. -/
  | cleaned (text : String) {output : Place} (ready : Ready options home tree path output)
      (h : ∀ input data plain, tree.lookupFile home path = .ok (input, data) →
        ¬ Unzips data plain) :
      Step options home tree path (tree.erase output) (.failed text)
  /-- The output holds the data, and the file is removed unless it is to be kept. -/
  | finished {output input : Place} {data plain : List UInt8}
      (ready : Ready options home tree path output)
      (hfile : tree.lookupFile home path = .ok (input, data)) (hunzips : Unzips data plain) :
      Step options home tree path
        (if options.keep then tree.insert output (.file plain)
          else (tree.insert output (.file plain)).erase input) .done

/-! ### Carrying out a step -/

theorem bind_of {act : StateM World α} {value : α} {w after : World} (h : act w = (value, after))
    (next : α → StateM World β) : (act >>= next) w = next value after := by
  show next (act w).1 (act w).2 = _
  rw [h]

theorem change_of {f : FileTree → Place → Except SystemError FileTree} {w : World}
    {tree : FileTree} (h : f w.tree w.home = .ok tree) :
    World.change f w = (.ok (), { w with tree }) := by
  rw [World.change, h]

section

variable {w : World} {path : String} {output input : Place} {source : Source}

namespace Ready

theorem vacant_or_forced (h : Ready options w.home w.tree path output) :
    ¬ (!options.force && w.exists? (outputName path)) = true := by
  cases hforce : options.force with
  | true => simp
  | false => simp [World.exists?, FileTree.lookup, h.place, h.vacant hforce]

theorem create (h : Ready options w.home w.tree path output) :
    w.tree.createFile w.home (outputName path) = .ok (w.tree.insert output (.file [])) :=
  FileTree.createFile_eq_ok_iff.2 ⟨output, h.place, h.free, rfl⟩

/-- The output holds what the source is decoded to. -/
theorem transfer_eq (h : Ready options w.home w.tree path output) {given : Array UInt8}
    {failure : Option ReadFailure}
    (hdecode : decodeAll options.chunkSize source = (given, failure)) :
    transfer (m := StateM World) options source (Host.appendFile (outputName path))
        { w with tree := w.tree.insert output (.file []) } =
      (failure.elim .done Outcome.ofFailure,
        { w with tree := w.tree.insert output (.file given.toList) }) := by
  unfold transfer
  rw [hdecode]
  exact bind_of (change_of (FileTree.appendFile_created h.free h.place given)) _

/-- The output is made and filled; what is then done depends on how the source ended. -/
theorem transferToFile_eq (h : Ready options w.home w.tree path output) {given : Array UInt8}
    {failure : Option ReadFailure}
    (hdecode : decodeAll options.chunkSize source = (given, failure)) :
    transferToFile (m := StateM World) options source path (outputName path) w =
      (match failure.elim .done Outcome.ofFailure with
        | .broken => return .broken
        | .failed text => do
          let _ ← Host.removeFile (outputName path)
          return .failed text
        | .done => do
          if options.keep then return .done
          match ← Host.removeFile path with
          | .error failure => return .failed failure.text
          | .ok () => return .done : StateM World Outcome)
        { w with tree := w.tree.insert output (.file given.toList) } := by
  unfold transferToFile
  refine (bind_of rfl _).trans ?_
  rw [if_neg h.vacant_or_forced]
  exact (bind_of (change_of h.create) _).trans (bind_of (h.transfer_eq hdecode) _)

theorem transferToFile_failing (h : Ready options w.home w.tree path output) {given : Array UInt8}
    {failure : ReadFailure} {text : String}
    (hdecode : decodeAll options.chunkSize source = (given, some failure))
    (htext : Outcome.ofFailure failure = .failed text) :
    transferToFile (m := StateM World) options source path (outputName path) w =
      (.failed text, { w with tree := w.tree.erase output }) := by
  rw [h.transferToFile_eq hdecode, Option.elim_some, htext]
  exact bind_of (change_of (FileTree.removeFile_created h.free h.place _)) _

/-- A defect leaves the output as it is. -/
theorem transferToFile_broken (h : Ready options w.home w.tree path output) {given : Array UInt8}
    {failure : ReadFailure}
    (hdecode : decodeAll options.chunkSize source = (given, some failure))
    (hbroken : Outcome.ofFailure failure = .broken) :
    transferToFile (m := StateM World) options source path (outputName path) w =
      (.broken, { w with tree := w.tree.insert output (.file given.toList) }) := by
  rw [h.transferToFile_eq hdecode, Option.elim_some, hbroken]
  rfl

/-- A file that is decoded makes place for its output, unless it is to be kept. -/
theorem transferToFile_done (h : Ready options w.home w.tree path output) {plain : Array UInt8}
    {data : List UInt8} (hinput : w.tree.locate w.home path = .ok input)
    (hfile : w.tree.find? input = some (.file data))
    (hdecode : decodeAll options.chunkSize source = (plain, none)) :
    transferToFile (m := StateM World) options source path (outputName path) w =
      (.done, { w with tree :=
        if options.keep then w.tree.insert output (.file plain.toList)
        else (w.tree.insert output (.file plain.toList)).erase input }) := by
  rw [h.transferToFile_eq hdecode, Option.elim_none]
  by_cases hkeep : options.keep = true
  · simp only [if_pos hkeep]
    rfl
  simp only [if_neg hkeep]
  have hne := w.tree.output_ne_input hinput hfile h.place
  exact bind_of (change_of (FileTree.removeFile_other h.free hinput hfile hne)) _

end Ready

theorem transferToFile_refused (hfound : ∃ entry, w.tree.lookup w.home path = .ok entry)
    (h : ∀ output, ¬ Ready options w.home w.tree path output) :
    ∃ text, transferToFile (m := StateM World) options source path (outputName path) w =
      (.failed text, w) := by
  unfold transferToFile
  by_cases hexists : (!options.force && w.exists? (outputName path)) = true
  · refine ⟨"output file " ++ outputName path ++ " already exists", (bind_of rfl _).trans ?_⟩
    rw [if_pos hexists]
    rfl
  cases hcreate : w.tree.createFile w.home (outputName path) with
  | error failure =>
    have hmake : Host.createFile (m := StateM World) (outputName path) w = (.error failure, w) := by
      show World.change _ w = _
      rw [World.change, hcreate]
    refine ⟨failure.text, (bind_of rfl _).trans ?_⟩
    rw [if_neg hexists]
    exact bind_of hmake _
  | ok created =>
    obtain ⟨output, hplace, hnone, -⟩ := FileTree.createFile_eq_ok_iff.1 hcreate
    refine absurd ⟨hfound, hplace, hnone, fun hforce => ?_⟩ (h output)
    by_contra hsome
    obtain ⟨entry, hentry⟩ := Option.ne_none_iff_exists'.1 hsome
    exact hexists (by simp [hforce, World.exists?, FileTree.lookup, hplace, hentry])

theorem takeFile_unzip (hmode : options.mode = .unzip) (houtput : options.output = .file) :
    takeFile (m := StateM World) options path w =
      match w.openFile path with
      | .error failure => (.failed failure.text, w)
      | .ok source =>
        transferToFile (m := StateM World) options source path (outputName path) w := by
  unfold takeFile
  have hopen : Host.openFile (m := StateM World) path w = (w.openFile path, w) := rfl
  refine (bind_of hopen _).trans ?_
  cases w.openFile path with
  | error failure => rfl
  | ok source => simp only [hmode, houtput]

/-- What becomes of a file whose output can be made. -/
theorem Ready.step (h : Ready options w.home w.tree path output) (hmode : options.mode = .unzip)
    (houtput : options.output = .file) (hchunk : options.chunkSize ≤ maxBufferBytes) :
    ∃ after outcome,
      takeFile (m := StateM World) options path w = (outcome, { w with tree := after }) ∧
      Step options w.home w.tree path after outcome := by
  rw [takeFile_unzip hmode houtput]
  obtain ⟨⟨input, entry⟩, hfound⟩ := h.found
  obtain ⟨hinput, hentry⟩ := FileTree.lookup_eq_ok_iff.1 hfound
  unfold World.openFile
  rw [hfound]
  cases entry with
  | file data =>
    have hfile := FileTree.lookupFile_eq_ok_iff.2 ⟨hinput, hentry⟩
    obtain ⟨plain, hunzips, hdecode⟩ | ⟨hbad, given, failure, text, hdecode, htext⟩ :=
      decodeAll_file data hchunk
    · exact ⟨_, _, h.transferToFile_done hinput hentry hdecode, .finished h hfile hunzips⟩
    · refine ⟨_, _, h.transferToFile_failing hdecode htext, .cleaned text h ?_⟩
      intro other found plain hother
      obtain ⟨rfl, rfl⟩ := Prod.mk.inj (Except.ok.inj (hfile.symm.trans hother))
      exact hbad plain
  | directory =>
    have hdecode : decodeAll options.chunkSize
        (.ofData [] [.failure ⟨.isDirectory, SystemError.isDirectory.text⟩]) = _ :=
      decodeAll_failing (by decide) hchunk
    refine ⟨_, _, h.transferToFile_failing hdecode rfl, .cleaned _ h ?_⟩
    intro other found plain hother
    rw [FileTree.lookupFile, hfound] at hother
    cases hother

/-- A chunk size that no buffer can have: the run ends when the output was made. -/
theorem Ready.takeFile_of_lt (h : Ready options w.home w.tree path output)
    (hmode : options.mode = .unzip) (houtput : options.output = .file)
    (hchunk : maxBufferBytes < options.chunkSize) :
    takeFile (m := StateM World) options path w =
      (.broken, { w with tree := w.tree.insert output (.file []) }) := by
  obtain ⟨⟨input, entry⟩, hfound⟩ := h.found
  obtain ⟨source, hopen⟩ : ∃ source, w.openFile path = .ok source := by
    unfold World.openFile
    rw [hfound]
    cases entry <;> exact ⟨_, rfl⟩
  rw [takeFile_unzip hmode houtput, hopen]
  exact h.transferToFile_broken (decodeAll_of_lt hchunk source) rfl

theorem takeFile_step (hmode : options.mode = .unzip) (houtput : options.output = .file)
    (hchunk : options.chunkSize ≤ maxBufferBytes) (path : String) (w : World) :
    ∃ after outcome,
      takeFile (m := StateM World) options path w = (outcome, { w with tree := after }) ∧
      Step options w.home w.tree path after outcome := by
  by_cases hready : ∃ output, Ready options w.home w.tree path output
  · obtain ⟨output, ready⟩ := hready
    exact ready.step hmode houtput hchunk
  rw [not_exists] at hready
  rw [takeFile_unzip hmode houtput]
  unfold World.openFile
  cases hfound : w.tree.lookup w.home path with
  | error failure => exact ⟨w.tree, _, rfl, .refused _ hready⟩
  | ok found =>
    obtain ⟨input, data | _⟩ := found
    all_goals
      obtain ⟨text, hrefused⟩ := transferToFile_refused ⟨_, hfound⟩ hready
      exact ⟨w.tree, _, hrefused, .refused text hready⟩

/-- What a step does. -/
theorem fileStep_step (hmode : options.mode = .unzip) (houtput : options.output = .file)
    (hchunk : options.chunkSize ≤ maxBufferBytes) (home : Place) (tree : FileTree) (path : String) :
    Step options home tree path (fileStep options home tree path).1
      (fileStep options home tree path).2 := by
  obtain ⟨after, outcome, heq, h⟩ :=
    takeFile_step hmode houtput hchunk path ⟨tree, home, [], #[], []⟩
  rw [fileStep, heq]
  exact h

end

/-! ## What a step may do -/

/-- A step from a tree changes nothing but the file and its output, and it loses no data. -/
structure Careful (options : Options) (home : Place) (tree : FileTree) (path : String)
    (after : FileTree) (outcome : Outcome) : Prop where
  /-- Nothing else is touched. -/
  frame : ∀ place, tree.locate home path ≠ .ok place →
    tree.locate home (outputName path) ≠ .ok place → after.find? place = tree.find? place
  /-- It succeeds if the file begins with a stream and the output can be made. -/
  done_iff : outcome = .done ↔
    (∃ input data plain, tree.lookupFile home path = .ok (input, data) ∧ Unzips data plain) ∧
      ∃ output, Ready options home tree path output
  /-- The output of a file that succeeds holds the data of the stream, and the file is removed
  unless it is to be kept. -/
  done : outcome = .done → ∃ input data plain output,
    tree.lookupFile home path = .ok (input, data) ∧ Unzips data plain ∧
      tree.locate home (outputName path) = .ok output ∧ output ≠ input ∧
      after.find? output = some (.file plain) ∧
      after.find? input = if options.keep then some (.file data) else none
  /-- A file that fails is what it was. -/
  kept : outcome ≠ .done → ∀ input, tree.locate home path = .ok input →
    after.find? input = tree.find? input
  /-- If outputs are not replaced, a file that fails changes nothing. -/
  untouched : outcome ≠ .done → options.force = false → after = tree
  /-- If they are, it removes its output, provided that could be made. -/
  cleaned : outcome ≠ .done → options.force = true →
    (∀ output, Ready options home tree path output → after.find? output = none ∧
      ∀ place, place ≠ output → after.find? place = tree.find? place) ∧
    ((∀ output, ¬ Ready options home tree path output) → after = tree)

theorem Ready.output_ne_input {home input output : Place} {tree : FileTree} {path : String}
    (h : Ready options home tree path output) (hinput : tree.locate home path = .ok input) :
    output ≠ input := by
  obtain ⟨⟨place, entry⟩, hfound⟩ := h.found
  obtain ⟨hplace, hentry⟩ := FileTree.lookup_eq_ok_iff.1 hfound
  obtain rfl := Except.ok.inj (hinput.symm.trans hplace)
  cases entry with
  | file data => exact tree.output_ne_input hinput hentry h.place
  | directory =>
    rintro rfl
    exact h.free hentry

theorem Step.careful {home : Place} {tree after : FileTree} {path : String} {outcome : Outcome}
    (h : Step options home tree path after outcome) :
    Careful options home tree path after outcome := by
  cases h with
  | refused text hrefused =>
    exact
      { frame := fun _ _ _ => rfl
        done_iff := ⟨nofun, fun ⟨_, output, ready⟩ => absurd ready (hrefused output)⟩
        done := nofun
        kept := fun _ _ _ => rfl
        untouched := fun _ _ => rfl
        cleaned := fun _ _ => ⟨fun output ready => absurd ready (hrefused output), fun _ => rfl⟩ }
  | @cleaned text output ready hbad =>
    have hfind (place : Place) :
        (tree.erase output).find? place = if place = output then none else tree.find? place :=
      tree.find?_erase (FileTree.ne_root ready.free) place
    exact
      { frame := fun place _ hother => by
          rw [hfind, if_neg]
          rintro rfl
          exact hother ready.place
        done_iff := ⟨nofun, fun ⟨⟨input, data, plain, hfile, hunzips⟩, _⟩ =>
          absurd hunzips (hbad input data plain hfile)⟩
        done := nofun
        kept := fun _ input hinput => by
          rw [hfind, if_neg (ready.output_ne_input hinput).symm]
        untouched := fun _ hforce => FileTree.erase_of_none (ready.vacant hforce)
        cleaned := fun _ _ => by
          refine ⟨fun other hother => ?_, fun hrefused => absurd ready (hrefused output)⟩
          obtain rfl := Except.ok.inj (ready.place.symm.trans hother.place)
          exact ⟨by rw [hfind, if_pos rfl], fun place hne => by rw [hfind, if_neg hne]⟩ }
  | @finished output input data plain ready hfile hunzips =>
    obtain ⟨hinput, hentry⟩ := FileTree.lookupFile_eq_ok_iff.1 hfile
    have hne := ready.output_ne_input hinput
    have hroot : input ≠ [] := FileTree.ne_root (by rw [hentry]; simp)
    have hfind (place : Place) : (if options.keep then tree.insert output (.file plain)
          else (tree.insert output (.file plain)).erase input).find? place =
        if place = output then some (.file plain)
        else if place = input ∧ options.keep = false then none else tree.find? place := by
      have hinsert := tree.find?_insert (FileTree.ne_root ready.free) place (.file plain)
      by_cases hkeep : options.keep = true
      · rw [if_pos hkeep, hinsert]
        simp [hkeep]
      · rw [if_neg hkeep, FileTree.find?_erase _ hroot, hinsert]
        by_cases heq : place = input
        · simp [heq, hne.symm, hkeep]
        · simp [heq]
    exact
      { frame := fun place hother houtput => by
          rw [hfind, if_neg, if_neg]
          · rintro ⟨rfl, -⟩
            exact hother hinput
          · rintro rfl
            exact houtput ready.place
        done_iff := ⟨fun _ => ⟨⟨input, data, plain, hfile, hunzips⟩, output, ready⟩, fun _ => rfl⟩
        done := fun _ => by
          refine ⟨input, data, plain, output, hfile, hunzips, ready.place, hne, ?_, ?_⟩
          · rw [hfind, if_pos rfl]
          · rw [hfind, if_neg hne.symm, hentry]
            cases options.keep <;> simp
        kept := fun h => absurd rfl h
        untouched := fun h => absurd rfl h
        cleaned := fun h => absurd rfl h }

end Bunzip.Cli
