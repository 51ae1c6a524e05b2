import Hyperlisting.FileTree

/-!
Finding what a path leads to. Names are looked up one by one, each in a directory; a link is
replaced by its target. `..` leads up from where the lookup is, not from how the path was written.
A lookup follows a limited number of links, so it ends on links that lead in a circle.
-/

namespace Hyperlisting.FileTree

/-- Bytes that a name may have. -/
def nameLimit : Nat := 255

/-- Bytes below which a path has to stay. -/
def pathLimit : Nat := 4096

/-- Links that one lookup may follow. -/
def linkLimit : Nat := 40

def startOf (directory : Location) (path : Path) : Location :=
  if path.isAbsolute then [] else directory

/-- Walks from a directory along the pieces of a path. A link in the last place is followed only
if `followLast` says so. `follow` goes on from a directory along the pieces of a link's target. -/
def walkPieces (tree : FileTree) (followLast : Bool)
    (follow : Location → List OsText → Except SystemError Location) :
    Location → List OsText → Except SystemError Location
  | place, [] => .ok place
  | place, piece :: rest =>
    match tree.get? place, Path.Component.ofPiece? piece with
    | some .directory, none => walkPieces tree followLast follow place rest
    | some .directory, some (.name name) =>
      if nameLimit < name.length then .error .nameTooLong
      else
        match tree.get? (place ++ [name]) with
        | none => .error .notFound
        | some (.link target) =>
          if rest.isEmpty && !followLast then .ok (place ++ [name])
          else follow (startOf place target) (target.parts.pieces ++ rest)
        | some _ => walkPieces tree followLast follow (place ++ [name]) rest
    | some .directory, some _ => walkPieces tree followLast follow place.dropLast rest
    | some _, _ => .error .notDirectory
    | none, _ => .error .notFound

/-- Walks along pieces and follows up to `links` links. -/
def walk (tree : FileTree) (followLast : Bool) :
    (links : Nat) → Location → List OsText → Except SystemError Location
  | 0 => walkPieces tree followLast fun _ _ => .error .tooManyLinks
  | links + 1 => walkPieces tree followLast (walk tree followLast links)

/-- A path that no lookup accepts, whatever the tree holds. -/
def refuse (path : Path) : Except SystemError Unit :=
  if path.bytes.contains 0 then .error .zeroInName
  else if path.bytes.isEmpty then .error .notFound
  else if pathLimit ≤ path.bytes.length then .error .nameTooLong
  else .ok ()

def resolve (tree : FileTree) (path : Path) : Except SystemError Location := do
  refuse path
  tree.walk true linkLimit (startOf tree.current path) path.parts.pieces

def find (tree : FileTree) (path : Path) : Except SystemError Entry := do
  let location ← tree.resolve path
  match tree.get? location with
  | some entry => return entry
  | none => throw .notFound

def isFile (tree : FileTree) (path : Path) : Bool :=
  match tree.find path with
  | .ok (.file _) => true
  | _ => false

def isDirectory (tree : FileTree) (path : Path) : Bool :=
  match tree.find path with
  | .ok .directory => true
  | _ => false

/-- The absolute path without links, `.` and `..` of what a path leads to. -/
def canonical (tree : FileTree) (path : Path) : Except SystemError Path :=
  (tree.resolve path).map pathOf

def readBytes (tree : FileTree) (path : Path) : Except SystemError ByteArray := do
  match ← tree.find path with
  | .file content => return content
  | _ => throw .isDirectory

def readText (tree : FileTree) (path : Path) : Except SystemError Text := do
  match String.fromUTF8? (← tree.readBytes path) with
  | some text => return text.toList
  | none => throw .notText

/-- Where a path puts a new entry: a directory, a name in it, and whether the path goes on with a
separator, as only the path of a directory may. -/
structure Slot where
  directory : Location
  name : OsText
  asDirectory : Bool

def Slot.location (slot : Slot) : Location := slot.directory ++ [slot.name]

/-- The slot of a path whose last piece is a name; none if it is `.`, `..` or the root. -/
def slot? (tree : FileTree) (path : Path) : Except SystemError (Option Slot) := do
  refuse path
  let pieces := path.parts.pieces
  let kept := (pieces.reverse.dropWhile List.isEmpty).reverse
  let directory ← tree.walk true linkLimit (startOf tree.current path) kept.dropLast
  if !tree.hasDirectory directory then throw .notDirectory
  match kept.getLast?.bind Path.Component.ofPiece? with
  | some (.name name) =>
    if nameLimit < name.length then throw .nameTooLong
    return some ⟨directory, name, kept.length < pieces.length⟩
  | _ => return none

end Hyperlisting.FileTree
