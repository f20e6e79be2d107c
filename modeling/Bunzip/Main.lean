import Bunzip.Cli.Run

/-!
# The program

Runs the command line on the system it is started on.
-/

namespace Bunzip

open Cli

/-- The text of a failed request to the system. -/
def systemText : IO.Error → String
  | .noFileOrDirectory _ code details | .resourceExhausted (some _) code details
  | .alreadyExists (some _) code details | .permissionDenied (some _) code details
  | .inappropriateType (some _) code details | .invalidArgument (some _) code details =>
    details ++ " (os error " ++ toString code ++ ")"
  | .alreadyExists none code details | .otherError code details
  | .permissionDenied none code details | .resourceExhausted none code details
  | .inappropriateType none code details | .invalidArgument none code details
  | .resourceBusy code details | .resourceVanished code details
  | .unsupportedOperation code details | .hardwareFault code details
  | .unsatisfiedConstraints code details | .illegalOperation code details
  | .protocolError code details | .timeExpired code details
  | .interrupted _ code details | .noSuchThing _ code details =>
    details ++ " (os error " ++ toString code ++ ")"
  | failure => toString failure

/-- Carries out a request to the system. -/
def attempt {α : Type} (request : IO α) : IO (Except SystemError α) := do
  try
    return .ok (← request)
  catch failure =>
    return .error ⟨systemText failure⟩

/-- Everything that a stream of the system holds. -/
partial def readStream (stream : IO.FS.Stream) (before : ByteArray) : IO ByteArray := do
  let bytes ← stream.read 65536
  if bytes.isEmpty then return before
  readStream stream (before ++ bytes)

/-- The data of a request, or a source that fails as the request did. -/
def sourceOf (request : IO ByteArray) : IO Input.Source := do
  match ← attempt request with
  | .ok bytes => return Input.Source.ofData bytes.toList []
  | .error failure => return Input.Source.ofData [] [.failure ⟨.other, failure.text⟩]

instance : Host IO where
  openFile name := do
    match ← attempt (IO.FS.Handle.mk name .read) with
    | .error failure => return .error failure
    | .ok handle => return .ok (← sourceOf handle.readBinToEnd)
  standardInput := do
    let stdin ← IO.getStdin
    sourceOf (readStream stdin .empty)
  exists? name := do
    match ← attempt (IO.FS.realPath name) with
    | .error _ => return false
    | .ok _ => return true
  createFile name := attempt do
    let _ ← IO.FS.Handle.mk name .write
  appendFile name data := attempt do
    let handle ← IO.FS.Handle.mk name .append
    handle.write ⟨data⟩
  removeFile name := attempt (IO.FS.removeFile name)
  standardOutput data := attempt do
    let stdout ← IO.getStdout
    stdout.write ⟨data⟩
    stdout.flush
  reportError text := IO.eprintln ("[ERROR] " ++ text)

def explain (refusal : Refusal) : IO Unit :=
  if refusal.isAnswer then IO.println refusal.message
  else IO.eprintln ("bunzip: " ++ refusal.message)

end Bunzip

/-- Runs the program; its result is the exit code. -/
def main (arguments : List String) : IO UInt32 := do
  if let .error refusal := Bunzip.Cli.Options.ofArguments arguments then
    Bunzip.explain refusal
  Bunzip.Cli.runArguments arguments
