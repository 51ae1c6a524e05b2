import Hyperlisting.Path
import Hyperlisting.SystemError
import Std.Data.TreeMap

/-!
A tree of files, directories and symbolic links, and a current directory that relative paths start
from. Entries are kept by location; the root is always a directory. A file may be given more content
than the system takes.
-/

namespace Hyperlisting

/-- The names from the root down to an entry. -/
abbrev Location := List OsText

inductive Entry where
  | file (content : ByteArray)
  | directory
  | link (target : Path)

def Entry.isDirectory : Entry → Bool
  | directory => true
  | _ => false

structure FileTree where
  entries : Std.TreeMap Location Entry := ∅
  current : Location := []
  /-- Bytes that the system takes for one file; none if it takes any number. -/
  room : Option Nat := none

namespace FileTree

def ofEntries (current : Location) (entries : List (Location × Entry)) : FileTree where
  entries := .ofList entries
  current

/-- The entry at a location, links not followed. -/
def get? (tree : FileTree) : Location → Option Entry
  | [] => some .directory
  | location => tree.entries[location]?

def hasDirectory (tree : FileTree) (location : Location) : Bool :=
  (tree.get? location).any Entry.isDirectory

/-- The system takes all of some content for one file. -/
def takes (tree : FileTree) (content : ByteArray) : Bool := tree.room.all (content.size ≤ ·)

def put (tree : FileTree) (location : Location) (entry : Entry) : FileTree :=
  { tree with entries := tree.entries.insert location entry }

def erase (tree : FileTree) (location : Location) : FileTree :=
  { tree with entries := tree.entries.erase location }

/-- All entries below a location, with the names that lead there from it. -/
def below (tree : FileTree) (location : Location) : List (Location × Entry) :=
  tree.entries.toList.filterMap fun (found, entry) =>
    if location.isPrefixOf found && location.length < found.length then
      some (found.drop location.length, entry)
    else none

def children (tree : FileTree) (directory : Location) : List (OsText × Entry) :=
  (tree.below directory).filterMap fun (names, entry) =>
    match names with
    | [name] => some (name, entry)
    | _ => none

def eraseAll (tree : FileTree) (location : Location) : FileTree :=
  (tree.below location).foldl (fun tree (names, _) => tree.erase (location ++ names))
    (tree.erase location)

def pathOf (location : Location) : Path := ⟨Path.separator :: [Path.separator].intercalate location⟩

@[simp] theorem get?_root (tree : FileTree) : tree.get? [] = some .directory := rfl

theorem mem_toList_of_get? {tree : FileTree} {location : Location} {entry : Entry}
    (nonempty : location ≠ []) (found : tree.get? location = some entry) :
    (location, entry) ∈ tree.entries.toList := by
  cases location with
  | nil => exact absurd rfl nonempty
  | cons name names => exact Std.TreeMap.mem_toList_iff_getElem?_eq_some.mpr found

theorem get?_of_mem_toList {tree : FileTree} {location : Location} {entry : Entry}
    (nonempty : location ≠ []) (mem : (location, entry) ∈ tree.entries.toList) :
    tree.get? location = some entry := by
  cases location with
  | nil => exact absurd rfl nonempty
  | cons name names => exact Std.TreeMap.mem_toList_iff_getElem?_eq_some.mp mem

theorem get?_put {tree : FileTree} {location other : Location} {entry : Entry}
    (below : location ≠ []) :
    (tree.put location entry).get? other =
      if location = other then some entry else tree.get? other := by
  cases other with
  | nil => simp [below]
  | cons name names =>
    simp only [get?, put, Std.TreeMap.getElem?_insert, Std.compare_eq_iff_eq]

theorem get?_erase {tree : FileTree} {location other : Location} (below : location ≠ []) :
    (tree.erase location).get? other =
      if location = other then none else tree.get? other := by
  cases other with
  | nil => simp [below]
  | cons name names =>
    simp only [get?, erase, Std.TreeMap.getElem?_erase, Std.compare_eq_iff_eq]

end FileTree
end Hyperlisting
