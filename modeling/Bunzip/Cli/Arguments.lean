import Bunzip.Cli.Options

/-!
# Arguments of the command line

An option is a long name after two dashes, with a value after an equals sign if it has one, or
letters after one dash; `--` makes files of all that follow. The value of the chunk size may also be
the next argument.

Arguments are taken in one by one, and an option that is not known is refused at once. File names
and a chunk size are checked only when the next known option is taken in, or at the end: until then
they are `Pending`. What is wrong with the options as a whole, a flag given twice or a chunk size
without a value, is found at the end, in the order in which the settings stand in the record.
-/

namespace Bunzip.Cli

/-- The options without a value. -/
inductive Flag where
  | decompress
  | stdout
  | test
  | keep
  | force
  | verbose
  | quiet
  | help
  | version
deriving Repr, DecidableEq, Inhabited

/-- The flag of a letter. -/
def Flag.ofLetter? : Char → Option Flag
  | 'd' => some .decompress
  | 'c' => some .stdout
  | 't' => some .test
  | 'k' => some .keep
  | 'f' => some .force
  | 'v' => some .verbose
  | 'q' => some .quiet
  | 'h' => some .help
  | 'V' => some .version
  | _ => none

/-- The flag of a long name. -/
def Flag.ofName? : String → Option Flag
  | "decompress" => some .decompress
  | "stdout" => some .stdout
  | "test" => some .test
  | "keep" => some .keep
  | "force" => some .force
  | "verbose" => some .verbose
  | "quiet" => some .quiet
  | "help" => some .help
  | "version" => some .version
  | _ => none

/-- The number that decimal digits write, after one plus sign at most; it must have 64 bits at
most. -/
def sizeOfText? (text : String) : Option Nat :=
  let digits := match text.toList with
    | '+' :: rest => rest
    | chars => chars
  if digits.isEmpty || !digits.all Char.isDigit then none
  else
    let n := digits.foldl (fun n digit => 10 * n + (digit.toNat - '0'.toNat)) 0
    if n < 2 ^ 64 then some n else none

/-- What an argument sets. -/
inductive Setting where
  | flag (flag : Flag)
  | chunkSize
  | files
deriving Repr, DecidableEq, Inhabited

/-- Settings, each once, in the order in which they are checked at the end. -/
abbrev Record := List Setting

namespace Record

/-- Adds a setting behind the others, unless it is there. -/
def keep (record : Record) (setting : Setting) : Record :=
  if setting ∈ record then record else record ++ [setting]

/-- Takes out a setting; the last one moves to its place. -/
def remove (record : Record) (setting : Setting) : Record :=
  match record.getLast? with
  | none => []
  | some last =>
    if setting ∈ record then (record.set (record.idxOf setting) last).dropLast else record

/-- Puts a setting behind the others, also if it is there. -/
def renew (record : Record) (setting : Setting) : Record :=
  record.remove setting ++ [setting]

end Record

/-- Values that were not checked yet. -/
inductive Pending where
  | nothing
  | files (names : List String)
  /-- A chunk size, which may lack its value. -/
  | chunkSize (text : Option String)
deriving Repr, DecidableEq, Inhabited

/-- What the arguments so far say. -/
structure Arguments where
  files : List String
  /-- The flags, each as often as it was given. -/
  flags : List Flag
  chunkSize : Option Nat
  record : Record
  pending : Pending
  /-- Whether the next argument may be the chunk size. -/
  awaiting : Bool
  /-- Whether all that follow are files. -/
  onlyFiles : Bool
deriving Repr, DecidableEq, Inhabited

namespace Arguments

def empty : Arguments := ⟨[], [], none, [], .nothing, false, false⟩

/-- Checks the pending values. -/
def settle (a : Arguments) : Except Refusal Arguments :=
  match a.pending with
  | .nothing => .ok a
  | .files names =>
    if "" ∈ names then .error .emptyValue
    else .ok { a with
      files := a.files ++ names
      record := a.record.keep .files
      pending := .nothing }
  | .chunkSize none =>
    .ok { a with chunkSize := none, record := a.record.renew .chunkSize, pending := .nothing }
  | .chunkSize (some text) =>
    match sizeOfText? text with
    | none => .error .invalidValue
    | some size => .ok { a with
        chunkSize := some size
        record := a.record.renew .chunkSize
        pending := .nothing }

/-- Takes in a file, which is pending together with the files right before it. -/
def addFile (a : Arguments) (name : String) : Except Refusal Arguments :=
  match a.pending with
  | .files names => .ok { a with pending := .files (names ++ [name]), awaiting := false }
  | _ => do
    let a ← a.settle
    return { a with pending := .files [name], awaiting := false }

/-- Takes in a flag. -/
def addFlag (a : Arguments) (flag : Flag) : Except Refusal Arguments := do
  let a ← a.settle
  match flag with
  | .help => throw .helpWanted
  | .version => throw .versionWanted
  | .verbose =>
    return { a with
      flags := .verbose :: a.flags
      record := a.record.renew (.flag .verbose)
      awaiting := false }
  | flag =>
    return { a with
      flags := flag :: a.flags
      record := a.record.keep (.flag flag)
      awaiting := false }

/-- Takes in the letters of short options. -/
def addLetters (a : Arguments) : List Char → Except Refusal Arguments
  | [] => return a
  | letter :: letters =>
    match Flag.ofLetter? letter with
    | none => throw .unknownArgument
    | some flag => do (← a.addFlag flag).addLetters letters

/-- Takes in a chunk size; a value that came with it is checked at once. -/
def addChunkSize (a : Arguments) (value : Option String) : Except Refusal Arguments := do
  let a ← a.settle
  let a := { a with pending := .chunkSize value, awaiting := value.isNone }
  if value.isSome then a.settle else return a

/-- Takes in a long option, given as the text after the dashes. -/
def addLong (a : Arguments) (text : List Char) : Except Refusal Arguments :=
  let name := String.ofList (text.takeWhile (· ≠ '='))
  let value := match text.dropWhile (· ≠ '=') with
    | [] => none
    | _ :: value => some (String.ofList value)
  if name = "chunk-size" then a.addChunkSize value
  else
    match Flag.ofName? name, value with
    | none, _ => throw .unknownArgument
    | some _, some _ => throw .superfluousValue
    | some flag, none => a.addFlag flag

/-- Takes in an argument. -/
def add (a : Arguments) (argument : String) : Except Refusal Arguments :=
  if a.onlyFiles then a.addFile argument
  else
    match argument.toList with
    | ['-', '-'] => return { a with onlyFiles := true }
    | '-' :: '-' :: text => a.addLong text
    | '-' :: letter :: letters => a.addLetters (letter :: letters)
    | _ =>
      if a.awaiting then
        return { a with pending := .chunkSize (some argument), awaiting := false }
      else a.addFile argument

/-- What is wrong with a setting, if anything. -/
def problem? (a : Arguments) : Setting → Option Refusal
  | .flag .verbose => none
  | .flag flag => if 1 < a.flags.count flag then some .repeatedFlag else none
  | .chunkSize => if a.chunkSize.isNone then some .emptyValue else none
  | .files => none

/-- What is wrong with the arguments as a whole, if anything. -/
def refusal? (a : Arguments) : Option Refusal :=
  if a.awaiting then some .emptyValue else a.record.findSome? a.problem?

/-- The verbosity that the arguments ask for. -/
def verbosity (a : Arguments) : Verbosity :=
  if Flag.quiet ∈ a.flags then .quiet
  else
    match a.flags.count .verbose with
    | 0 => .warnings
    | 1 => .info
    | 2 => .debug
    | _ => .trace

/-- The options that settled arguments give. A chunk has at least one byte. -/
def options (a : Arguments) : Options :=
  { files := a.files
    force := Flag.force ∈ a.flags
    keep := Flag.keep ∈ a.flags
    mode := if Flag.test ∈ a.flags then .test else .unzip
    output := if Flag.stdout ∈ a.flags ∨ a.files = [] then .stdout else .file
    verbosity := a.verbosity
    chunkSize := max (a.chunkSize.getD Input.defaultChunkSize) 1 }

end Arguments

/-- The options that a command line gives. -/
def Options.ofArguments (arguments : List String) : Except Refusal Options := do
  let a ← arguments.foldlM Arguments.add Arguments.empty
  let a ← a.settle
  match a.refusal? with
  | some refusal => throw refusal
  | none => return a.options

end Bunzip.Cli
