import Hyperlisting.FileTree.Lookup

/-!
The source files at or below a path. A search starts from what is shown of the path and goes down
along the names of entries, and through links to directories, so it may come to one file on several
ways. Every step down makes the path longer, and lookups limit links and length, so a search also
ends on links that lead in a circle.
-/

namespace Hyperlisting.FileTree

inductive Finding where
  | source (file : Path)
  /-- A directory whose entries cannot be read. -/
  | unreadable (directory : Path) (cause : SystemError)

namespace Finding

def source? : Finding → Option Path
  | source file => some file
  | unreadable .. => none

def unreadable? : Finding → Option (Path × SystemError)
  | source _ => none
  | unreadable directory cause => some (directory, cause)

end Finding

def sourceExtensions : List OsText := ["py", "pyw"].map fun extension => extension.toList

def entryPath (directory : Path) (name : OsText) : Path :=
  if directory.bytes == [Path.dot] then ⟨name⟩ else directory.join ⟨name⟩

/-- An entry is a directory, or a link whose path leads to one. -/
def opens (tree : FileTree) (path : Path) : Entry → Bool
  | .directory => true
  | .link _ => tree.isDirectory path
  | .file _ => false

/-- The file that a path leads to, in canonical form. -/
def sourceAt (tree : FileTree) (path : Path) : List Finding :=
  match tree.resolve path with
  | .error _ => []
  | .ok location =>
    match tree.get? location with
    | some (.file _) => [.source (pathOf location)]
    | _ => []

/-- A name that is a text and has an extension. -/
def hasExtension (extension name : OsText) : Bool :=
  OsText.IsText name && Path.extension? ⟨name⟩ == some extension

/-- Searches the entries of a directory by name, and below each that opens, for files of an
extension. No path of `pathLimit` names is ever searched, since a lookup would refuse it. -/
def search (tree : FileTree) (extension : OsText) : (depth : Nat) → Path → List Finding
  | 0, _ => []
  | depth + 1, directory =>
    match tree.resolve directory with
    | .error cause => [.unreadable directory cause]
    | .ok location =>
      (tree.children location).flatMap fun (name, entry) =>
        let path := entryPath directory name
        (if hasExtension extension name then tree.sourceAt path else []) ++
          if tree.opens path entry then search tree extension depth path else []

/-- The path that a search starts from: what is shown of a path, written with single separators. A
relative path starts after its leading `.` pieces, and a separator that stands there leaves nothing
to search. The empty path starts from the root. -/
def searchStart? (path : Path) : Option Path :=
  let shown := Path.mk path.text
  let along (start : Path) (pieces : List OsText) : Path :=
    pieces.foldl (fun way piece => way.join ⟨piece⟩) start
  if shown.bytes.isEmpty then some ⟨[Path.separator]⟩
  else if shown.isAbsolute then some (along ⟨[Path.separator]⟩ shown.parts.pieces)
  else
    match (shown.bytes.splitOn Path.separator).dropWhile (· == [Path.dot]) with
    | [] => some ⟨[Path.dot]⟩
    | [] :: _ => none
    | piece :: rest => some (along ⟨piece⟩ rest)

/-- What is found at or below a path, one extension after the other; a path that leads to a file
is taken whatever its name. -/
def findSources (tree : FileTree) (path : Path) : List Finding :=
  if tree.isFile path then tree.sourceAt path
  else
    match searchStart? path with
    | none => []
    | some start =>
      if tree.isDirectory start then
        sourceExtensions.flatMap fun extension => tree.search extension pathLimit start
      else []

/-- The files among some findings, in path order, each once. -/
def sourcesOf (findings : List Finding) : List Path :=
  ((findings.filterMap Finding.source?).mergeSort
    fun path other => (compare path other).isLE).eraseReps

end Hyperlisting.FileTree
