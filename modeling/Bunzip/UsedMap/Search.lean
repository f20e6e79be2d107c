import Bunzip.UsedMap

/-!
# Searching a map flag by flag

The bytes of a map are found by going through the groups and, in a group that is used, through the
flags of its bitmap. A flag is told by its mask. The bitmap of a group is looked up by the number of
used groups so far; the search ends where it is missing.
-/

namespace Bunzip.UsedMap.Search

/-- The word that has flag `i` alone. -/
def mask (i : Nat) : UInt16 := 0x8000 >>> UInt16.ofNat i

/-- Whether a word has flag `i`. -/
def has (word : UInt16) (i : Nat) : Bool := decide (0 < word &&& mask i)

/-- Finds the bytes of a group by the flags of its bitmap, after the bytes `found`. -/
def bytesOf (group : Nat) (bitmap : UInt16) (found : Array UInt8) : Array UInt8 :=
  (List.range 16).foldl
    (fun found i =>
      if has bitmap i then found.push ((UInt8.ofNat group <<< 4) + UInt8.ofNat i) else found)
    found

/-- Goes through groups, of which `used` came before that are used. -/
def bytesFrom (words : List UInt16) (first : UInt16) :
    (groups : List Nat) → (used : Nat) → (found : Array UInt8) → Array UInt8
  | [], _, found => found
  | group :: rest, used, found =>
    if has first group then
      match words[used + 1]? with
      | none => found
      | some bitmap => bytesFrom words first rest (used + 1) (bytesOf group bitmap found)
    else bytesFrom words first rest used found

/-- The bytes that a map names; an empty list is no map. -/
def bytes? (words : List UInt16) : Option (Array UInt8) :=
  match words[0]? with
  | none => none
  | some first => some (bytesFrom words first (List.range 16) 0 #[])

end Bunzip.UsedMap.Search
