import Bunzip.Proofs.Cli.Runs

/-!
# Testing

A run that only tests changes no files, and its exit code tells whether all inputs begin with
streams (`runArguments_tested`). With files it writes nothing either. Without files it writes the data
of standard input, as if they were wanted (`testing_writes`).
-/

namespace Bunzip.Cli

open Bunzip.Input Bunzip.Stream

variable {options : Options} {chunkSize : Nat}

/-! ## Verdicts -/

/-- What decoding a source comes to. -/
def verdict (chunkSize : Nat) (source : Source) : Outcome :=
  (decodeAll chunkSize source).2.elim .done Outcome.ofFailure

/-- What testing a file comes to. -/
def testFile (chunkSize : Nat) (w : World) (path : String) : Outcome :=
  match w.openFile path with
  | .error failure => .failed failure.text
  | .ok source => verdict chunkSize source

/-- The file is there and begins with a stream. -/
def Unzippable (w : World) (path : String) : Prop :=
  ∃ place data plain, w.tree.lookupFile w.home path = .ok (place, data) ∧ Unzips data plain

/-- There is a file or a directory. -/
def Openable (w : World) (path : String) : Prop :=
  ∃ entry, w.tree.lookup w.home path = .ok entry

theorem verdict_data (hchunk : chunkSize ≤ maxBufferBytes) (data : List UInt8) :
    verdict chunkSize (.ofData data []) ≠ .broken ∧
      (verdict chunkSize (.ofData data []) = .done ↔ ∃ plain, Unzips data plain) := by
  obtain ⟨plain, hunzips, hdecode⟩ | ⟨hbad, given, failure, text, hdecode, htext⟩ :=
    decodeAll_file data hchunk
  · rw [verdict, hdecode]
    exact ⟨nofun, fun _ => ⟨plain, hunzips⟩, fun _ => rfl⟩
  · rw [verdict, hdecode]
    show Outcome.ofFailure failure ≠ .broken ∧ (Outcome.ofFailure failure = .done ↔ _)
    rw [htext]
    exact ⟨nofun, nofun, fun ⟨plain, hunzips⟩ => absurd hunzips (hbad plain)⟩

theorem verdict_of_lt (hchunk : maxBufferBytes < chunkSize) (source : Source) :
    verdict chunkSize source = .broken := by
  rw [verdict, decodeAll_of_lt hchunk]
  rfl

theorem testFile_spec (hchunk : chunkSize ≤ maxBufferBytes) (w : World) (path : String) :
    testFile chunkSize w path ≠ .broken ∧
      (testFile chunkSize w path = .done ↔ Unzippable w path) := by
  unfold testFile World.openFile Unzippable FileTree.lookupFile
  cases hfound : w.tree.lookup w.home path with
  | error failure => exact ⟨nofun, nofun, nofun⟩
  | ok found =>
    obtain ⟨place, data | _⟩ := found
    · obtain ⟨hbroken, hdone⟩ := verdict_data hchunk data
      refine ⟨hbroken, hdone.trans ⟨fun ⟨plain, h⟩ => ⟨place, data, plain, rfl, h⟩, ?_⟩⟩
      rintro ⟨_, _, plain, heq, h⟩
      cases heq
      exact ⟨plain, h⟩
    · have hdirectory : verdict chunkSize (.ofData []
          [.failure ⟨.isDirectory, SystemError.isDirectory.text⟩]) =
            .failed SystemError.isDirectory.text := by
        rw [verdict, decodeAll_failing (by decide) hchunk]
        rfl
      dsimp only
      rw [hdirectory]
      exact ⟨nofun, nofun, nofun⟩

theorem testFile_of_lt (hchunk : maxBufferBytes < chunkSize) (w : World) (path : String) :
    testFile chunkSize w path ≠ .done ∧
      (testFile chunkSize w path = .broken ↔ Openable w path) := by
  unfold testFile World.openFile Openable
  cases hfound : w.tree.lookup w.home path with
  | error failure => exact ⟨nofun, nofun, nofun⟩
  | ok found =>
    obtain ⟨place, data | _⟩ := found
    all_goals
      dsimp only
      rw [verdict_of_lt hchunk]
      exact ⟨nofun, fun _ => ⟨_, rfl⟩, fun _ => rfl⟩

/-! ## Counting failures -/

/-- The failures among outcomes, unless one of them is a breakdown. -/
def failures (outcomes : List Outcome) : Option Nat :=
  if .broken ∈ outcomes then none else some (outcomes.countP (· ≠ .done))

theorem failures_failed (text : String) (outcomes : List Outcome) :
    failures (.failed text :: outcomes) = (failures outcomes).map (· + 1) := by
  by_cases h : .broken ∈ outcomes <;> simp [failures, h]

theorem exitCode_failures (outcomes : List Outcome) :
    exitCode .test (failures outcomes) =
      if .broken ∈ outcomes then 101
      else if ∀ outcome ∈ outcomes, outcome = .done then 0 else 2 := by
  unfold failures
  split
  · rfl
  by_cases hall : ∀ outcome ∈ outcomes, outcome = .done
  · rw [if_pos hall, (countP_eq_zero_iff outcomes).2 hall]
    rfl
  · obtain ⟨n, hn⟩ := Nat.exists_eq_succ_of_ne_zero (mt (countP_eq_zero_iff outcomes).1 hall)
    rw [if_neg hall, hn]
    rfl

theorem takeFile_test (hmode : options.mode = .test) (path : String) (w : World) :
    takeFile (m := StateM World) options path w = (testFile options.chunkSize w path, w) := by
  have hopen : Host.openFile (m := StateM World) path w = (w.openFile path, w) := rfl
  unfold takeFile testFile
  refine (bind_of hopen _).trans ?_
  cases w.openFile path with
  | error failure => rfl
  | ok source =>
    rw [hmode]
    rfl

/-- Testing files changes nothing but the reports. -/
theorem takeFiles_test (hmode : options.mode = .test) (paths : List String) (w : World) :
    ∃ errors, takeFiles (m := StateM World) options paths w =
      (failures (paths.map (testFile options.chunkSize w)), { w with errors }) := by
  induction paths generalizing w with
  | nil => exact ⟨w.errors, rfl⟩
  | cons path paths ih =>
    have htake := takeFile_test hmode path w
    rw [List.map_cons]
    unfold takeFiles
    cases houtcome : testFile options.chunkSize w path with
    | broken =>
      rw [houtcome] at htake
      refine ⟨w.errors, (bind_of htake _).trans ?_⟩
      rw [failures, if_pos (List.mem_cons_self ..)]
      rfl
    | done =>
      rw [houtcome] at htake
      obtain ⟨errors, herrors⟩ := ih w
      refine ⟨errors, (bind_of htake _).trans (herrors.trans ?_)⟩
      simp [failures]
    | failed text =>
      rw [houtcome] at htake
      obtain ⟨reported, hreport⟩ := report_apply options path text w
      obtain ⟨errors, herrors⟩ := ih { w with errors := reported }
      refine ⟨errors, (bind_of htake _).trans ((bind_of hreport _).trans
        ((bind_of herrors _).trans ?_))⟩
      show ((failures (paths.map (testFile options.chunkSize w))).map (· + 1), _) = _
      rw [failures_failed]

/-- Standard input is written as far as it can be decoded. -/
theorem takeStandardInput_eq (options : Options) (w : World) :
    ∃ errors, takeStandardInput (m := StateM World) options w =
      (failures [verdict options.chunkSize (.ofData w.input [])],
        { w with
          input := []
          output := w.output ++ (decodeAll options.chunkSize (.ofData w.input [])).1
          errors }) := by
  generalize hafter : ({ w with
    input := []
    output := w.output ++ (decodeAll options.chunkSize (.ofData w.input [])).1 } : World) = after
  have hinput : Host.standardInput (m := StateM World) w =
      (.ofData w.input [], { w with input := [] }) := rfl
  have htransfer : transfer (m := StateM World) options (.ofData w.input []) Host.standardOutput
      { w with input := [] } = (verdict options.chunkSize (.ofData w.input []), after) := by
    rw [← hafter]
    exact bind_of rfl _
  suffices ∃ errors, takeStandardInput (m := StateM World) options w =
      (failures [verdict options.chunkSize (.ofData w.input [])], { after with errors }) by
    rw [← hafter] at this
    exact this
  unfold takeStandardInput
  generalize verdict options.chunkSize (.ofData w.input []) = outcome at htransfer ⊢
  cases outcome with
  | broken => exact ⟨after.errors, (bind_of hinput _).trans (bind_of htransfer _)⟩
  | done => exact ⟨after.errors, (bind_of hinput _).trans (bind_of htransfer _)⟩
  | failed text =>
    obtain ⟨errors, hreport⟩ := report_apply options "(stdin)" text after
    exact ⟨errors, (bind_of hinput _).trans ((bind_of htransfer _).trans (bind_of hreport _))⟩

/-! ## Runs that test -/

/-- All that is to be tested begins with a stream. -/
def AllUnzippable (options : Options) (w : World) : Prop :=
  if options.files = [] then ∃ plain, Unzips w.input plain
  else ∀ path ∈ options.files, Unzippable w path

/-- Something that is to be tested can be opened. -/
def SomeOpenable (options : Options) (w : World) : Prop :=
  options.files = [] ∨ ∃ path ∈ options.files, Openable w path

/-- What a run that tests comes to. -/
structure Tested (options : Options) (w : World) (code : UInt32) (after : World) : Prop where
  tree_eq : after.tree = w.tree
  /-- With files nothing is written. -/
  silent : options.files ≠ [] → after.output = w.output
  /-- Without files, what can be decoded is written. -/
  written : options.files = [] → options.chunkSize ≤ maxBufferBytes →
    after.output = w.output ++ (bytesGiven (Decompressor.start.drain w.input)).toArray
  code_eq : options.chunkSize ≤ maxBufferBytes →
    (code = 0 ∨ code = 2) ∧ (code = 0 ↔ AllUnzippable options w)
  /-- A chunk size that no buffer can have is noticed with the first input. -/
  broken : maxBufferBytes < options.chunkSize → after.output = w.output ∧
    (code = 101 ∨ code = 2) ∧ (code = 101 ↔ SomeOpenable options w)

/-- What is to be tested comes to these outcomes. -/
def testAll (options : Options) (w : World) : List Outcome :=
  if options.files = [] then [verdict options.chunkSize (.ofData w.input [])]
  else options.files.map (testFile options.chunkSize w)

theorem testAll_ne_broken (hchunk : options.chunkSize ≤ maxBufferBytes) (w : World) :
    .broken ∉ testAll options w := by
  unfold testAll
  split
  · rw [List.mem_singleton]
    exact (verdict_data hchunk _).1.symm
  · rintro hmem
    obtain ⟨path, -, hpath⟩ := List.mem_map.1 hmem
    exact (testFile_spec hchunk w path).1 hpath

theorem testAll_done_iff (hchunk : options.chunkSize ≤ maxBufferBytes) (w : World) :
    (∀ outcome ∈ testAll options w, outcome = .done) ↔ AllUnzippable options w := by
  unfold testAll AllUnzippable
  split
  · rw [List.forall_mem_singleton]
    exact (verdict_data hchunk _).2
  · rw [List.forall_mem_map]
    exact forall₂_congr fun path _ => (testFile_spec hchunk w path).2

theorem testAll_broken_iff (hchunk : maxBufferBytes < options.chunkSize) (w : World) :
    .broken ∈ testAll options w ↔ SomeOpenable options w := by
  unfold testAll SomeOpenable
  split
  · rename_i hfiles
    rw [verdict_of_lt hchunk]
    exact ⟨fun _ => .inl hfiles, fun _ => List.mem_singleton_self _⟩
  · rename_i hfiles
    rw [List.mem_map, or_iff_right hfiles]
    exact exists_congr fun path => and_congr_right fun _ => (testFile_of_lt hchunk w path).2

theorem exists_not_done (hchunk : maxBufferBytes < options.chunkSize) (w : World) :
    ¬ ∀ outcome ∈ testAll options w, outcome = .done := by
  unfold testAll
  split
  · rw [verdict_of_lt hchunk, List.forall_mem_singleton]
    nofun
  · rename_i hfiles
    obtain ⟨path, paths, hpaths⟩ := List.exists_cons_of_ne_nil hfiles
    rw [List.forall_mem_map]
    intro hall
    exact (testFile_of_lt hchunk w path).1 (hall path (hpaths ▸ List.mem_cons_self ..))

theorem runArguments_of_input {arguments : List String}
    (h : Options.ofArguments arguments = .ok options) (hfiles : options.files = []) (w : World) :
    runArguments (m := StateM World) arguments w =
      (do return exitCode options.mode (← takeStandardInput options) : StateM World UInt32) w := by
  unfold runArguments
  rw [h]
  dsimp only
  unfold run
  rw [if_pos (by simpa using hfiles)]

theorem runArguments_eq {arguments : List String}
    (hoptions : Options.ofArguments arguments = .ok options) (hmode : options.mode = .test)
    (w : World) :
    ∃ after, runArguments (m := StateM World) arguments w =
        (exitCode .test (failures (testAll options w)), after) ∧
      after.tree = w.tree ∧ after.output = w.output ++
        if options.files = [] then (decodeAll options.chunkSize (.ofData w.input [])).1
        else #[] := by
  rw [testAll, ← hmode]
  by_cases hfiles : options.files = []
  · obtain ⟨errors, hinput⟩ := takeStandardInput_eq options w
    rw [if_pos hfiles, if_pos hfiles]
    exact ⟨_, (runArguments_of_input hoptions hfiles w).trans (bind_of hinput _), rfl, rfl⟩
  · obtain ⟨errors, htaken⟩ := takeFiles_test hmode options.files w
    rw [if_neg hfiles, if_neg hfiles, Array.append_empty]
    exact ⟨_, (runArguments_of_files hoptions hfiles w).trans (bind_of htaken _), rfl, rfl⟩

/-- Testing changes no file, writes nothing unless the data of standard input, and tells by the exit
code whether all inputs begin with streams. -/
theorem runArguments_tested {arguments : List String} (w : World)
    (hoptions : Options.ofArguments arguments = .ok options) (hmode : options.mode = .test) :
    Tested options w (runArguments (m := StateM World) arguments w).1
      (runArguments (m := StateM World) arguments w).2 := by
  obtain ⟨after, hrun, htree, houtput⟩ := runArguments_eq hoptions hmode w
  rw [hrun, exitCode_failures]
  exact
    { tree_eq := htree
      silent := fun hfiles => by rw [houtput, if_neg hfiles, Array.append_empty]
      written := fun hfiles hchunk => by
        obtain ⟨last, -, hdecode⟩ := decodeAll_ofData w.input hchunk
        rw [houtput, if_pos hfiles, hdecode]
      code_eq := fun hchunk => by
        rw [if_neg (testAll_ne_broken hchunk w), ← testAll_done_iff hchunk w]
        by_cases hall : ∀ outcome ∈ testAll options w, outcome = .done
        · rw [if_pos hall]
          exact ⟨.inl rfl, fun _ => hall, fun _ => rfl⟩
        · rw [if_neg hall]
          exact ⟨.inr rfl, nofun, fun h => absurd h hall⟩
      broken := fun hchunk => by
        rw [if_neg (exists_not_done hchunk w), ← testAll_broken_iff hchunk w]
        refine ⟨?_, ?_⟩
        · rw [houtput, decodeAll_of_lt hchunk, ite_self, Array.append_empty]
        · split
          · exact ⟨.inl rfl, fun _ => ‹_›, fun _ => rfl⟩
          · exact ⟨.inr rfl, nofun, fun h => absurd h ‹_›⟩ }

/-- A file that is tested, and one that is not there. -/
theorem runArguments_tested_two : ∃ options,
    Options.ofArguments ["-tf", "a.bz2", "b.bz2"] = .ok options ∧ options.mode = .test ∧
      Tested options oneFile
        (runArguments (m := StateM World) ["-tf", "a.bz2", "b.bz2"] oneFile).1
        (runArguments (m := StateM World) ["-tf", "a.bz2", "b.bz2"] oneFile).2 := by
  have hoptions : Options.ofArguments ["-tf", "a.bz2", "b.bz2"] = .ok { Options.standard with
      files := ["a.bz2", "b.bz2"], force := true, mode := .test } := by decide +kernel
  exact ⟨_, hoptions, rfl, runArguments_tested oneFile hoptions rfl⟩

/-! ## Standard input -/

def streamGiven : World := World.start [] byteStream.bytes

/-- The byte is written although it is only to be tested. -/
theorem testing_writes : ∃ options,
    Options.ofArguments ["-t"] = .ok options ∧ options.mode = .test ∧ streamGiven.output = #[] ∧
      (runArguments (m := StateM World) ["-t"] streamGiven).2.output = #[98] := by
  have hoptions : Options.ofArguments ["-t"] =
      .ok { Options.standard with mode := .test, output := .stdout } := by decide +kernel
  obtain ⟨after, hrun, -, houtput⟩ := runArguments_eq hoptions rfl streamGiven
  obtain ⟨last, -, hdecode⟩ := decodeAll_ofData byteStream.bytes
    (show defaultChunkSize ≤ maxBufferBytes by decide)
  rw [bytesGiven_of_results [#[98]] drain_byteStream] at hdecode
  refine ⟨_, hoptions, rfl, rfl, ?_⟩
  rw [hrun]
  refine (houtput.trans (congrArg (streamGiven.output ++ ·) (if_pos rfl))).trans ?_
  show #[] ++ (decodeAll defaultChunkSize (.ofData byteStream.bytes [])).1 = #[98]
  rw [hdecode]
  rfl

end Bunzip.Cli
