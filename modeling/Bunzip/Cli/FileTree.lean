/-!
# Files and directories

A `FileTree` tells for each place what is there. A place is the list of names on the way to it from
the root, which is a directory. A path is a text whose names are parted by slashes; it is followed
name by name from the root or from a directory (`walk`), where `.` stays and `..` goes up. Each
directory on the way must be there, so `a/..` leads nowhere if `a` is a file.

Names have 255 bytes at most, and paths fewer than 4096.
-/

namespace Bunzip.Cli

structure SystemError where
  text : String
deriving Repr, DecidableEq, Inhabited

namespace SystemError

def noSuchFile : SystemError := ⟨"No such file or directory (os error 2)"⟩

def notDirectory : SystemError := ⟨"Not a directory (os error 20)"⟩

def isDirectory : SystemError := ⟨"Is a directory (os error 21)"⟩

def nameTooLong : SystemError := ⟨"File name too long (os error 36)"⟩

end SystemError

/-- The names on the way from the root. -/
abbrev Place := List String

/-- What is at a place. -/
inductive Entry where
  | file (data : List UInt8)
  | directory
deriving Repr, DecidableEq, Inhabited

def maxNameBytes : Nat := 255

def maxPathBytes : Nat := 4095

/-! ## Paths -/

/-- The parts of a text between slashes. -/
def slashParts : List Char → List (List Char)
  | [] => [[]]
  | c :: rest =>
    if c = '/' then [] :: slashParts rest
    else
      match slashParts rest with
      | [] => [[c]]
      | part :: parts => (c :: part) :: parts

/-- The names of a path. A slash at its end asks for a directory, as a last name `.` does. -/
def pathNames (path : String) : List String :=
  let parts := (slashParts path.toList).map String.ofList
  parts.filter (· ≠ "") ++ if parts.getLast? = some "" then ["."] else []

def isAbsolute (path : String) : Bool := path.toList.head? = some '/'

/-! ## Trees -/

/-- Files and directories by their places; the root has no entry. -/
structure FileTree where
  entries : List (Place × Entry)
deriving Repr, DecidableEq, Inhabited

namespace FileTree

def empty : FileTree := ⟨[]⟩

def find? (t : FileTree) (place : Place) : Option Entry :=
  if place = [] then some .directory else t.entries.lookup place

def erase (t : FileTree) (place : Place) : FileTree :=
  ⟨t.entries.filter (·.1 ≠ place)⟩

def insert (t : FileTree) (place : Place) (entry : Entry) : FileTree :=
  ⟨(place, entry) :: (t.erase place).entries⟩

/-- The place that names lead to from a directory; there need be nothing. -/
def walk (t : FileTree) (place : Place) : List String → Except SystemError Place
  | [] => .ok place
  | name :: names =>
    match t.find? place with
    | none => .error .noSuchFile
    | some (.file _) => .error .notDirectory
    | some .directory =>
      if name = "." then t.walk place names
      else if name = ".." then t.walk place.dropLast names
      else if maxNameBytes < name.utf8ByteSize then .error .nameTooLong
      else t.walk (place ++ [name]) names

/-- The place that a path leads to. -/
def locate (t : FileTree) (home : Place) (path : String) : Except SystemError Place :=
  if path.isEmpty then .error .noSuchFile
  else if maxPathBytes < path.utf8ByteSize then .error .nameTooLong
  else t.walk (if isAbsolute path then [] else home) (pathNames path)

/-- What a path leads to, with its place. -/
def lookup (t : FileTree) (home : Place) (path : String) : Except SystemError (Place × Entry) :=
  match t.locate home path with
  | .error failure => .error failure
  | .ok place =>
    match t.find? place with
    | none => .error .noSuchFile
    | some entry => .ok (place, entry)

/-- The file that a path leads to, with its place. -/
def lookupFile (t : FileTree) (home : Place) (path : String) :
    Except SystemError (Place × List UInt8) :=
  match t.lookup home path with
  | .error failure => .error failure
  | .ok (_, .directory) => .error .isDirectory
  | .ok (place, .file data) => .ok (place, data)

/-- Makes an empty file, in place of one that exists. -/
def createFile (t : FileTree) (home : Place) (path : String) : Except SystemError FileTree :=
  match t.locate home path with
  | .error failure => .error failure
  | .ok place =>
    match t.find? place with
    | some .directory => .error .isDirectory
    | _ => .ok (t.insert place (.file []))

/-- Writes to the end of a file. -/
def appendFile (t : FileTree) (home : Place) (path : String) (data : Array UInt8) :
    Except SystemError FileTree :=
  match t.lookupFile home path with
  | .error failure => .error failure
  | .ok (place, old) => .ok (t.insert place (.file (old ++ data.toList)))

/-- Removes a file. -/
def removeFile (t : FileTree) (home : Place) (path : String) : Except SystemError FileTree :=
  match t.lookupFile home path with
  | .error failure => .error failure
  | .ok (place, _) => .ok (t.erase place)

/-- Makes the directories on the way from a place along names, where there is nothing. -/
def makeDirectories (t : FileTree) (place : Place) : List String → FileTree
  | [] => t
  | name :: names =>
    let place := place ++ [name]
    let t := if (t.find? place).isSome then t else t.insert place .directory
    t.makeDirectories place names

/-- The names in a directory, with what they stand for. -/
def children (t : FileTree) (place : Place) : List (String × Entry) :=
  t.entries.filterMap fun (other, entry) =>
    match other.getLast? with
    | none => none
    | some name => if other.dropLast = place then some (name, entry) else none

/-! ## Entries -/

@[simp] theorem find?_root (t : FileTree) : t.find? [] = some .directory := rfl

theorem lookup_filter_ne {place other : Place} (h : other ≠ place) (list : List (Place × Entry)) :
    (list.filter (·.1 ≠ place)).lookup other = list.lookup other := by
  induction list with
  | nil => rfl
  | cons head rest ih =>
    obtain ⟨key, entry⟩ := head
    by_cases hkey : key = place
    · have hne : (other == key) = false := by simpa [hkey] using h
      rw [List.filter_cons_of_neg (by simpa using hkey), List.lookup_cons, hne, ih]
    · rw [List.filter_cons_of_pos (by simpa using hkey), List.lookup_cons, List.lookup_cons, ih]

theorem lookup_filter_self (place : Place) (list : List (Place × Entry)) :
    (list.filter (·.1 ≠ place)).lookup place = none := by
  rw [List.lookup_eq_none_iff]
  intro head hmem
  have := (List.mem_filter.1 hmem).2
  simpa using Ne.symm (by simpa using this)

theorem find?_insert (t : FileTree) {place : Place} (h : place ≠ []) (other : Place)
    (entry : Entry) :
    (t.insert place entry).find? other = if other = place then some entry else t.find? other := by
  unfold find? insert erase
  by_cases hroot : other = []
  · simp [hroot, Ne.symm h]
  · by_cases heq : other = place
    · simp [heq, h]
    · have hne : (other == place) = false := by simpa using heq
      rw [if_neg hroot, if_neg hroot, if_neg heq, List.lookup_cons, hne]
      exact lookup_filter_ne heq t.entries

theorem find?_erase (t : FileTree) {place : Place} (h : place ≠ []) (other : Place) :
    (t.erase place).find? other = if other = place then none else t.find? other := by
  unfold find? erase
  by_cases hroot : other = []
  · simp [hroot, Ne.symm h]
  · by_cases heq : other = place
    · subst heq
      rw [if_neg hroot, if_pos rfl]
      exact lookup_filter_self other t.entries
    · rw [if_neg hroot, if_neg hroot, if_neg heq]
      exact lookup_filter_ne heq t.entries

end FileTree

end Bunzip.Cli
