import Bunzip.Input.Reader

/-!
# Options of a run

What the program can be asked to do, and why it may refuse to.
-/

namespace Bunzip.Cli

inductive Mode where
  | unzip
  | test
deriving Repr, DecidableEq, Inhabited

inductive Output where
  | file
  | stdout
deriving Repr, DecidableEq, Inhabited

/-- How much is reported. -/
inductive Verbosity where
  | quiet
  | warnings
  | info
  | debug
  | trace
deriving Repr, DecidableEq, Inhabited

/-- The least important level that is reported. -/
def Verbosity.level : Verbosity → String
  | .quiet => "OFF"
  | .warnings => "WARN"
  | .info => "INFO"
  | .debug => "DEBUG"
  | .trace => "TRACE"

/-- What the program is asked to do. -/
structure Options where
  /-- The input files; none for standard input. -/
  files : List String
  /-- Whether output files may exist already. -/
  force : Bool
  /-- Whether input files are kept. -/
  keep : Bool
  mode : Mode
  output : Output
  verbosity : Verbosity
  chunkSize : Nat
deriving Repr, DecidableEq, Inhabited

/-- What holds unless an option says otherwise. -/
def Options.standard : Options :=
  { files := []
    force := false
    keep := false
    mode := .unzip
    output := .file
    verbosity := .warnings
    chunkSize := Input.defaultChunkSize }

/-- Why no options are made of the arguments. -/
inductive Refusal where
  | unknownArgument
  /-- A file has an empty name, or the chunk size no value. -/
  | emptyValue
  /-- The chunk size is not a number of 64 bits. -/
  | invalidValue
  /-- A flag has a value. -/
  | superfluousValue
  /-- A flag is given twice. -/
  | repeatedFlag
  | helpWanted
  | versionWanted
deriving Repr, DecidableEq, Inhabited

end Bunzip.Cli
