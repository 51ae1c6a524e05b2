import Hyperlisting.Declaration
import Hyperlisting.Log
import Std.Data.TreeMap

/-!
The index: all declarations of some files in one table, with the table's places by name and by
file. A declaration's place is its number and never changes.
-/

namespace Hyperlisting

structure Index where
  /-- The files in the order in which they were added. -/
  files : Array Path := #[]
  /-- All declarations, file by file. -/
  declarations : Array Declaration := #[]
  byName : Std.TreeMap Text (Array Nat) := ∅
  byFile : Std.TreeMap Path (Array Nat) := ∅

namespace Index

def insert (index : Index) (declaration : Declaration) : Index :=
  let id := index.declarations.size
  { index with
    declarations := index.declarations.push declaration
    byName := index.byName.insert declaration.name
      ((index.byName.getD declaration.name #[]).push id)
    byFile := index.byFile.insert declaration.file
      ((index.byFile.getD declaration.file #[]).push id) }

/-- The declarations that adding a file puts into the table. -/
def found (index : Index) (file : Path) (source : Text) : List Declaration :=
  Declaration.ofSource file source index.declarations.size

def addFile (index : Index) (file : Path) (source : Text) : Index :=
  let filled := (index.found file source).foldl insert index
  { filled with files := filled.files.push file }

def numbered? (index : Index) (id : Nat) : Option (Nat × Declaration) :=
  index.declarations[id]?.map (id, ·)

def declarationsIn (index : Index) (file : Path) : List (Nat × Declaration) :=
  (index.byFile.getD file #[]).toList.filterMap index.numbered?

def lookup (index : Index) (name : Text) : List Declaration :=
  (index.byName.getD name #[]).toList.filterMap (index.declarations[·]?)

def count (index : Index) (kind : DeclarationKind) : Nat :=
  index.declarations.countP (·.kind = kind)

def statusText (index : Index) : Text :=
  Log.Event.status index.files.size (index.count .classType) (index.count .function)
    (index.count .assignment)

def status (index : Index) : Log.Event :=
  .indexed index.files.size (index.count .classType) (index.count .function)
    (index.count .assignment)

end Index
end Hyperlisting
