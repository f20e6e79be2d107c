import Bunzip.Cli.FileTree
import Bunzip.Input.Source

/-!
# The host of a run

What a run asks of the system around it, `Host`, and a system made of plain data, `World`: files and
directories are a `FileTree`, and every request is a function on it.
-/

namespace Bunzip.Cli

/-- A system on which a run takes place. -/
class Host (m : Type → Type) where
  /-- Opens a file for reading. -/
  openFile : String → m (Except SystemError Input.Source)
  /-- The data of standard input. -/
  standardInput : m Input.Source
  /-- Whether there is something of this name. -/
  exists? : String → m Bool
  /-- Makes an empty file, in place of one that exists. -/
  createFile : String → m (Except SystemError Unit)
  /-- Writes to the end of a file. -/
  appendFile : String → Array UInt8 → m (Except SystemError Unit)
  removeFile : String → m (Except SystemError Unit)
  /-- Writes to standard output. -/
  standardOutput : Array UInt8 → m (Except SystemError Unit)
  /-- Reports an error. -/
  reportError : String → m Unit

/-! ## Plain data -/

/-- A system of plain data. -/
structure World where
  tree : FileTree
  /-- The directory that a path begins in unless it begins with a slash. -/
  home : Place
  input : List UInt8
  output : Array UInt8
  /-- The errors reported, the first one first. -/
  errors : List String
deriving Repr, DecidableEq, Inhabited

namespace World

/-- A system with an empty directory to begin in, and data on standard input. -/
def start (home : Place) (input : List UInt8) : World :=
  ⟨FileTree.empty.makeDirectories [] home, home, input, #[], []⟩

/-- The system with a directory, which may be there already, and those on the way to it. -/
def addDirectory (w : World) (names : List String) : World :=
  { w with tree := w.tree.makeDirectories w.home names }

/-- The system with a file, and with the directories on the way to it. -/
def addFile (w : World) (names : List String) (data : List UInt8) : World :=
  let tree := w.tree.makeDirectories w.home names.dropLast
  { w with tree := tree.insert (w.home ++ names) (.file data) }

def listing (w : World) : List (String × Entry) := w.tree.children w.home

/-- Opens a file. A directory can be opened, but the first request to it fails. -/
def openFile (w : World) (path : String) : Except SystemError Input.Source :=
  match w.tree.lookup w.home path with
  | .error failure => .error failure
  | .ok (_, .file data) => .ok (Input.Source.ofData data [])
  | .ok (_, .directory) =>
    .ok (Input.Source.ofData [] [.failure ⟨.isDirectory, SystemError.isDirectory.text⟩])

/-- Whether a path leads to something. -/
def exists? (w : World) (path : String) : Bool :=
  match w.tree.lookup w.home path with
  | .error _ => false
  | .ok _ => true

/-- Carries out a change of the files; a change that fails leaves them as they are. -/
def change (f : FileTree → Place → Except SystemError FileTree) :
    StateM World (Except SystemError Unit) := fun w =>
  match f w.tree w.home with
  | .error failure => (.error failure, w)
  | .ok tree => (.ok (), { w with tree })

instance : Host (StateM World) where
  openFile path := fun w => (w.openFile path, w)
  standardInput := fun w => (Input.Source.ofData w.input [], { w with input := [] })
  exists? path := fun w => (w.exists? path, w)
  createFile path := change (·.createFile · path)
  appendFile path data := change (·.appendFile · path data)
  removeFile path := change (·.removeFile · path)
  standardOutput data := fun w => (.ok (), { w with output := w.output ++ data })
  reportError text := fun w => ((), { w with errors := w.errors ++ [text] })

end World

end Bunzip.Cli
