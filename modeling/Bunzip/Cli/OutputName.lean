/-!
# Names of output files

The data of `a.bz2` goes to `a`, that of `a.tbz2` to `a.tar`; the short forms `.bz` and `.tbz` count
as well. Any other name gets `.out` at its end.

A path names a file by its last component, not counting separators and `/.` at the end. The
extension of a file name is what follows its last dot, unless that is the first character.
-/

namespace Bunzip.Cli

namespace FilePath

/-- The reversed path without separators and `/.` at its end. -/
def trimReversed : List Char → List Char
  | '.' :: '/' :: rest => trimReversed rest
  | '/' :: rest => trimReversed rest
  | path => path

def trim (path : List Char) : List Char := (trimReversed path.reverse).reverse

/-- The last component of a path and what stands before it. -/
def lastComponent (path : List Char) : List Char × List Char :=
  let reversed := (trim path).reverse
  ((reversed.takeWhile (· ≠ '/')).reverse, (reversed.dropWhile (· ≠ '/')).reverse)

/-- Whether a component is the name of a file, and not a step to a directory. -/
def isFileName (component : List Char) : Bool :=
  component ≠ [] && component ≠ ['.'] && component ≠ ['.', '.']

def fileName? (path : List Char) : Option (List Char) :=
  let name := (lastComponent path).1
  if isFileName name then some name else none

/-- The part of a name before its last dot, and the part after it if the dot is not the first
character. -/
def splitExtension (name : List Char) : List Char × Option (List Char) :=
  let ending := (name.reverse.takeWhile (· ≠ '.')).reverse
  let start := name.take (name.length - ending.length - 1)
  if name.contains '.' && start ≠ [] then (start, some ending) else (name, none)

def extension? (path : List Char) : Option (List Char) :=
  (fileName? path).bind fun name => (splitExtension name).2

/-- Gives the file that a path names another extension, or none if it is empty. -/
def setExtension (path extension : List Char) : List Char :=
  match fileName? path with
  | none => path
  | some name =>
    (lastComponent path).2 ++ (splitExtension name).1 ++
      (if extension = [] then [] else '.' :: extension)

/-- Replaces an extension. The path is first shortened by as many characters as the extension has;
what is left names a file again, unless the file was a dot with an extension. -/
def replaceExtension (path extension replacement : List Char) : List Char :=
  setExtension (path.take (path.length - extension.length)) replacement

end FilePath

/-- The name of the output file for an input file. -/
def outputName (path : String) : String :=
  let chars := path.toList
  match FilePath.extension? chars with
  | none => path ++ ".out"
  | some extension =>
    let ending := String.ofList extension
    if ending = "bz2" ∨ ending = "bz" then
      String.ofList (FilePath.replaceExtension chars extension [])
    else if ending = "tbz2" ∨ ending = "tbz" then
      String.ofList (FilePath.replaceExtension chars extension "tar".toList)
    else path ++ ".out"

end Bunzip.Cli
