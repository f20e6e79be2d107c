import Bunzip.Proofs.Cli.Files

/-!
# Runs over files

A run takes its files one after the other, each on the tree that the ones before have left
(`takeFiles_eq`). So a run that writes to files loses no data (`runArguments_filesTaken`), unless the
chunk size is one that no buffer can have: then it breaks off and leaves an empty output behind
(`oversized_chunk_breaks_off`).
-/

namespace Bunzip.Cli

variable {options : Options}

/-! ## Arguments and exit codes -/

theorem exists_arguments {arguments : List String}
    (h : Options.ofArguments arguments = .ok options) : ∃ a : Arguments, options = a.options := by
  simp only [Options.ofArguments, bind, Except.bind, pure, Except.pure, throw, throwThe,
    MonadExceptOf.throw] at h
  grind

theorem files_ne_nil {arguments : List String}
    (h : Options.ofArguments arguments = .ok options) (houtput : options.output = .file) :
    options.files ≠ [] := by
  obtain ⟨a, rfl⟩ := exists_arguments h
  intro hnil
  have : (if Flag.stdout ∈ a.flags ∨ a.files = [] then Output.stdout else .file) = .file := houtput
  rw [if_pos (.inr hnil)] at this
  cases this

theorem countP_eq_zero_iff (outcomes : List Outcome) :
    outcomes.countP (· ≠ .done) = 0 ↔ ∀ outcome ∈ outcomes, outcome = .done :=
  List.countP_eq_zero.trans (forall₂_congr fun outcome _ => by rw [decide_eq_true_iff, not_not])

theorem exitCode_unzip (failures : Nat) :
    exitCode .unzip (some failures) = if failures = 0 then 0 else 1 := by
  cases failures <;> rfl

/-! ## Files one after the other -/

/-- Takes one more file: the tree after it, and the outcomes so far. -/
def nextFile (options : Options) (home : Place) (state : FileTree × List Outcome) (path : String) :
    FileTree × List Outcome :=
  ((fileStep options home state.1 path).1, state.2 ++ [(fileStep options home state.1 path).2])

theorem foldl_nextFile (options : Options) (home : Place) (tree : FileTree)
    (outcomes : List Outcome) (paths : List String) :
    paths.foldl (nextFile options home) (tree, outcomes) =
      ((paths.foldl (nextFile options home) (tree, [])).1,
        outcomes ++ (paths.foldl (nextFile options home) (tree, [])).2) := by
  induction paths generalizing tree outcomes with
  | nil => rw [List.foldl_nil, List.foldl_nil, List.append_nil]
  | cons path paths ih =>
    rw [List.foldl_cons, List.foldl_cons, nextFile, nextFile, ih, ih _ ([] ++ _),
      List.nil_append, List.append_assoc]

theorem report_apply (options : Options) (name text : String) (w : World) :
    ∃ errors, report (m := StateM World) options name text w = ((), { w with errors }) := by
  unfold report
  split
  · exact ⟨w.errors, rfl⟩
  · exact ⟨_, rfl⟩

/-- Taking files is taking one after the other. -/
theorem takeFiles_eq (hmode : options.mode = .unzip) (houtput : options.output = .file)
    (hchunk : options.chunkSize ≤ maxBufferBytes) (paths : List String) (w : World) :
    ∃ errors, takeFiles (m := StateM World) options paths w =
      (some ((paths.foldl (nextFile options w.home) (w.tree, [])).2.countP (· ≠ .done)),
        { w with tree := (paths.foldl (nextFile options w.home) (w.tree, [])).1, errors }) := by
  induction paths generalizing w with
  | nil => exact ⟨w.errors, rfl⟩
  | cons path paths ih =>
    have htake := takeFile_eq hmode houtput path w
    have hstep := fileStep_step hmode houtput hchunk w.home w.tree path
    have hfold : (path :: paths).foldl (nextFile options w.home) (w.tree, []) = _ :=
      foldl_nextFile options w.home (fileStep options w.home w.tree path).1
        [(fileStep options w.home w.tree path).2] paths
    rw [hfold]
    generalize fileStep options w.home w.tree path = step at htake hstep ⊢
    obtain ⟨after, outcome⟩ := step
    unfold takeFiles
    cases outcome with
    | broken => cases hstep
    | done =>
      obtain ⟨errors, herrors⟩ := ih { w with tree := after }
      refine ⟨errors, (bind_of htake _).trans (herrors.trans ?_)⟩
      simp
    | failed text =>
      obtain ⟨reported, hreport⟩ := report_apply options path text { w with tree := after }
      obtain ⟨errors, herrors⟩ := ih { w with tree := after, errors := reported }
      refine ⟨errors, (bind_of htake _).trans ((bind_of hreport _).trans
        ((bind_of herrors _).trans ?_))⟩
      rw [List.countP_append, Nat.add_comm]
      rfl

theorem takeFiles_of_broken {path : String} {w after : World}
    (h : takeFile (m := StateM World) options path w = (.broken, after)) (paths : List String) :
    takeFiles (m := StateM World) options (path :: paths) w = (none, after) := by
  unfold takeFiles
  exact bind_of h _

theorem runArguments_of_files {arguments : List String}
    (h : Options.ofArguments arguments = .ok options) (hfiles : options.files ≠ []) (w : World) :
    runArguments (m := StateM World) arguments w =
      (do return exitCode options.mode (← takeFiles options options.files) : StateM World UInt32)
        w := by
  unfold runArguments
  rw [h]
  dsimp only
  unfold run
  rw [if_neg (by simpa using hfiles)]

/-- What a run that writes to files comes to. -/
structure FilesTaken (options : Options) (w : World) (code : UInt32) (after : World) : Prop where
  /-- The files are taken one by one, each on the tree that the ones before have left. -/
  tree_eq : after.tree = (options.files.foldl (nextFile options w.home) (w.tree, [])).1
  code_eq : code = if ∀ outcome ∈ (options.files.foldl (nextFile options w.home) (w.tree, [])).2,
    outcome = .done then 0 else 1
  output_eq : after.output = w.output
  careful : ∀ tree path, Careful options w.home tree path (fileStep options w.home tree path).1
    (fileStep options w.home tree path).2

/-- Files are never lost: a run that writes to files is a series of careful steps, each on the tree
that the ones before have left, and it succeeds if all of them do. -/
theorem runArguments_filesTaken {arguments : List String} (w : World)
    (hoptions : Options.ofArguments arguments = .ok options) (hmode : options.mode = .unzip)
    (houtput : options.output = .file) (hchunk : options.chunkSize ≤ maxBufferBytes) :
    FilesTaken options w (runArguments (m := StateM World) arguments w).1
      (runArguments (m := StateM World) arguments w).2 := by
  obtain ⟨errors, hfiles⟩ := takeFiles_eq hmode houtput hchunk options.files w
  have hrun : runArguments (m := StateM World) arguments w = _ :=
    (runArguments_of_files hoptions (files_ne_nil hoptions houtput) w).trans (bind_of hfiles _)
  rw [hrun]
  exact
    { tree_eq := rfl
      code_eq := by
        rw [hmode, exitCode_unzip]
        exact if_congr (countP_eq_zero_iff _) rfl rfl
      output_eq := rfl
      careful := fun tree path => (fileStep_step hmode houtput hchunk w.home tree path).careful }

/-! ## Runs over one file -/

/-- The stream of a line of text. -/
def greeting : List UInt8 :=
  [0x42, 0x5a, 0x68, 0x39, 0x31, 0x41, 0x59, 0x26, 0x53, 0x59, 0xc1, 0xc0, 0x80, 0xe2, 0x00, 0x00,
    0x01, 0x41, 0x00, 0x00, 0x10, 0x02, 0x44, 0xa0, 0x00, 0x30, 0xcd, 0x00, 0xc3, 0x46, 0x29, 0x97,
    0x17, 0x72, 0x45, 0x38, 0x50, 0x90, 0xc1, 0xc0, 0x80, 0xe2]

/-- A directory with one file. -/
def oneFile : World := (World.start ["home"] []).addFile ["a.bz2"] greeting

/-- A file that is taken twice. -/
theorem runArguments_filesTaken_twice : ∃ options,
    Options.ofArguments ["a.bz2", "a.bz2"] = .ok options ∧ options.mode = .unzip ∧
      options.output = .file ∧ options.chunkSize ≤ maxBufferBytes ∧
      FilesTaken options oneFile (runArguments (m := StateM World) ["a.bz2", "a.bz2"] oneFile).1
        (runArguments (m := StateM World) ["a.bz2", "a.bz2"] oneFile).2 := by
  have hoptions : Options.ofArguments ["a.bz2", "a.bz2"] =
      .ok { Options.standard with files := ["a.bz2", "a.bz2"] } := by decide +kernel
  exact ⟨_, hoptions, rfl, rfl, by decide,
    runArguments_filesTaken oneFile hoptions rfl rfl (by decide)⟩

/-- A file whose chunks are too large for any buffer. -/
theorem oversized_chunk_breaks_off : ∃ options,
    Options.ofArguments ["--chunk-size=9223372036854775808", "a.bz2"] = .ok options ∧
      options.mode = .unzip ∧ options.output = .file ∧ options.force = false ∧ ∃ after,
        runArguments (m := StateM World) ["--chunk-size=9223372036854775808", "a.bz2"] oneFile =
            (101, after) ∧
          ¬ FilesTaken options oneFile 101 after ∧ oneFile.tree.find? ["home", "a"] = none ∧
          after.tree.find? ["home", "a"] = some (.file []) := by
  have hoptions : Options.ofArguments ["--chunk-size=9223372036854775808", "a.bz2"] =
      .ok { Options.standard with files := ["a.bz2"], chunkSize := 2 ^ 63 } := by decide +kernel
  have hready : Ready { Options.standard with files := ["a.bz2"], chunkSize := 2 ^ 63 }
      oneFile.home oneFile.tree "a.bz2" ["home", "a"] :=
    { found := ⟨(["home", "a.bz2"], .file greeting), by decide +kernel⟩
      place := by decide +kernel
      free := by decide
      vacant := fun _ => by decide }
  have hfile := hready.takeFile_of_lt rfl rfl (by decide)
  refine ⟨_, hoptions, rfl, rfl, rfl, _,
    (runArguments_of_files hoptions (List.cons_ne_nil _ _) oneFile).trans
      (bind_of (takeFiles_of_broken hfile []) _), fun h => ?_, by decide, by decide⟩
  have hcode := h.code_eq
  split at hcode <;> cases hcode

end Bunzip.Cli
