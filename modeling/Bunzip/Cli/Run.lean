import Bunzip.Cli.Arguments
import Bunzip.Cli.Host
import Bunzip.Cli.OutputName
import Bunzip.Cli.Usage

/-!
# A run of the program

Files are taken one after the other, and one that fails does not keep the others from being taken.
The data of a file goes to a file of its own, to standard output, or nowhere if it is only tested. A
file that fails leaves no output behind; one that succeeds is removed unless it is to be kept. A
defect ends the run where it stands.
-/

namespace Bunzip.Cli

/-- Bytes that are read at a time from a decoded stream. -/
def pieceSize : Nat := 8192

/-- The data of a source, as far as it can be decoded, and the failure that ended it. -/
def decodeAll (chunkSize : Nat) (source : Input.Source) : Array UInt8 × Option Input.ReadFailure :=
  let (data, failure, _) := (Input.Reader.start source chunkSize).readAll pieceSize #[]
  (data, failure)

/-- What became of an input. -/
inductive Outcome where
  | done
  /-- It failed; the run goes on with the next one. -/
  | failed (text : String)
  /-- The program broke down over it; the run ends without a word. -/
  | broken
deriving Repr, DecidableEq, Inhabited

/-- What becomes of an input whose data cannot be given. -/
def Outcome.ofFailure : Input.ReadFailure → Outcome
  | .fault (.defect _) => .broken
  | failure => .failed failure.message

variable {m : Type → Type} [Monad m] [Host m]

/-- Decodes a source and writes its data. -/
def transfer (options : Options) (source : Input.Source)
    (write : Array UInt8 → m (Except SystemError Unit)) : m Outcome := do
  let (data, failure) := decodeAll options.chunkSize source
  match ← write data with
  | .error failure => return .failed failure.text
  | .ok () => return failure.elim .done Outcome.ofFailure

/-- Decodes a source into a file. If that fails, the file is removed. -/
def transferToFile (options : Options) (source : Input.Source) (path output : String) :
    m Outcome := do
  if !options.force && (← Host.exists? output) then
    return .failed ("output file " ++ output ++ " already exists")
  match ← Host.createFile output with
  | .error failure => return .failed failure.text
  | .ok () =>
    match ← transfer options source (Host.appendFile output) with
    | .broken => return .broken
    | .failed text =>
      let _ ← Host.removeFile output
      return .failed text
    | .done =>
      if options.keep then return .done
      match ← Host.removeFile path with
      | .error failure => return .failed failure.text
      | .ok () => return .done

/-- Takes a file. -/
def takeFile (options : Options) (path : String) : m Outcome := do
  match ← Host.openFile path with
  | .error failure => return .failed failure.text
  | .ok source =>
    match options.mode, options.output with
    | .test, _ => transfer options source fun _ => pure (.ok ())
    | .unzip, .stdout => transfer options source Host.standardOutput
    | .unzip, .file => transferToFile options source path (outputName path)

/-- Reports an error, unless nothing is to be reported. -/
def report (options : Options) (name text : String) : m Unit :=
  if options.verbosity = .quiet then pure () else Host.reportError (name ++ ": " ++ text)

/-- Takes files in their order and counts those that failed; no number if the run broke off. -/
def takeFiles (options : Options) : List String → m (Option Nat)
  | [] => return some 0
  | path :: paths => do
    match ← takeFile options path with
    | .done => takeFiles options paths
    | .failed text =>
      report options path text
      return (← takeFiles options paths).map (· + 1)
    | .broken => return none

/-- Decodes standard input to standard output, and counts a failure. -/
def takeStandardInput (options : Options) : m (Option Nat) := do
  match ← transfer options (← Host.standardInput) Host.standardOutput with
  | .done => return some 0
  | .failed text =>
    report options "(stdin)" text
    return some 1
  | .broken => return none

/-- The exit code of a run in which a number of inputs failed, or which broke off. -/
def exitCode (mode : Mode) : Option Nat → UInt32
  | none => 101
  | some 0 => 0
  | some _ => if mode = .test then 2 else 1

def run (options : Options) : m UInt32 := do
  let failures ← if options.files.isEmpty then takeStandardInput options
    else takeFiles options options.files
  return exitCode options.mode failures

/-- The exit code of a run that does not begin. -/
def Refusal.exitCode (refusal : Refusal) : UInt32 :=
  if refusal.isAnswer then 0 else 2

/-- Does what the arguments ask for, if they can be understood. -/
def runArguments (arguments : List String) : m UInt32 :=
  match Options.ofArguments arguments with
  | .error refusal => pure refusal.exitCode
  | .ok options => run options

end Bunzip.Cli
