import Hyperlisting.FileTree.Lookup
import Hyperlisting.Page

/-!
Steps that change a tree. A step that fails says why and keeps what earlier steps did. A page is
written next to its destination first and moved there in one step, so the destination never holds
part of a page, and the unfinished file is taken away when it cannot be filled or moved.
-/

namespace Hyperlisting

/-- A step that may change a tree, and keeps the tree when it fails. -/
abbrev FileStep := EStateM SystemError FileTree

theorem FileStep.bind_apply {α β : Type} (action : FileStep α) (next : α → FileStep β)
    (tree : FileTree) : (action >>= next) tree =
      match action tree with
      | .ok value after => next value after
      | .error cause after => .error cause after := by
  change EStateM.bind action next tree = _
  unfold EStateM.bind
  cases action tree <;> rfl

/-- What a step that fails has done stands while its failure is handled. -/
theorem FileStep.tryCatch_apply {α : Type} (action : FileStep α) (handle : SystemError → FileStep α)
    (tree : FileTree) : tryCatch action handle tree =
      match action tree with
      | .ok value after => .ok value after
      | .error cause after => handle cause after := by
  change EStateM.tryCatch action handle tree = _
  unfold EStateM.tryCatch
  cases action tree <;> rfl

namespace FileTree

def look {α : Type} (view : FileTree → Except SystemError α) : FileStep α := fun tree =>
  match view tree with
  | .ok value => .ok value tree
  | .error cause => .error cause tree

theorem look_bind_apply {α β : Type} (view : FileTree → Except SystemError α)
    (next : α → FileStep β) (tree : FileTree) : (look view >>= next) tree =
      match view tree with
      | .ok value => next value tree
      | .error cause => .error cause tree := by
  rw [FileStep.bind_apply, look]
  cases view tree <;> rfl

def makeDirectory (path : Path) : FileStep Unit := do
  match ← look (·.slot? path) with
  | none => throw .alreadyExists
  | some slot =>
    if ((← get).get? slot.location).isSome then throw .alreadyExists
    modify (·.put slot.location .directory)

/-- The path and all paths above it, up to the empty path or the root, which are left out. -/
def ancestry (path : Path) : List Path :=
  go path.bytes.length path
where
  go : Nat → Path → List Path
    | 0, _ => []
    | steps + 1, path =>
      match path.parent? with
      | none => []
      | some parent => path :: go steps parent

/-- Makes the first of some nested directories, given from the innermost out, after those around
it that are missing. -/
def makeNested : List Path → FileStep Unit
  | [] => pure ()
  | path :: outer => fun tree =>
    match makeDirectory path tree with
    | .error .notFound tree =>
      match makeNested outer tree with
      | .ok () tree =>
        match makeDirectory path tree with
        | .error .alreadyExists tree =>
          if tree.isDirectory path then .ok () tree else .error .alreadyExists tree
        | result => result
      | result => result
    | .error .alreadyExists tree =>
      if tree.isDirectory path then .ok () tree else .error .alreadyExists tree
    | result => result

def makeDirectories (path : Path) : FileStep Unit := makeNested (ancestry path)

def freshName (tree : FileTree) (directory : Location) : OsText :=
  let taken := (tree.children directory).map Prod.fst
  let candidate (n : Nat) : OsText := Text.utf8 (".tmp".toList ++ Text.ofNat n)
  ((List.range (taken.length + 1)).map candidate).find? (!taken.contains ·) |>.getD (candidate 0)

/-- Makes an empty file of a new name in a directory, and gives its location. -/
def makeTemporary (directory : Path) : FileStep Location := do
  let place ← look (·.resolve directory)
  if !(← get).hasDirectory place then throw .notDirectory
  let location := place ++ [(← get).freshName place]
  modify (·.put location (.file ByteArray.empty))
  return location

/-- Gives a file its content, or as much of it as the system takes. -/
def fill (location : Location) (content : ByteArray) : FileStep Unit := fun tree =>
  if tree.takes content then .ok () (tree.put location (.file content))
  else .error .noSpace (tree.put location (.file (content.extract 0 (tree.room.getD 0))))

/-- Moves a file to where a path leads, in place of a file or link there but not of a directory. -/
def moveFile (source : Location) (path : Path) : FileStep Unit := do
  match ← look (·.slot? path) with
  | none => throw .busy
  | some slot =>
    if slot.asDirectory then throw .notDirectory
    match (← get).get? source, (← get).get? slot.location with
    | _, some .directory => throw .isDirectory
    | some entry, _ => modify fun tree => (tree.erase source).put slot.location entry
    | none, _ => throw .notFound

/-- Puts a whole file where a path leads, or leaves everything there as it was. -/
def replaceFile (directory path : Path) (content : ByteArray) : FileStep Unit := do
  let temporary ← makeTemporary directory
  try
    fill temporary content
    moveFile temporary path
  catch cause =>
    modify (·.erase temporary)
    throw cause

end FileTree

/-- Writes a page, and makes the directories above it that are missing. -/
def Page.write (page : Page) : FileStep Unit := do
  let directory := page.output.parent?.getD ⟨".".toList⟩
  FileTree.makeDirectories directory
  FileTree.replaceFile (if directory.bytes.isEmpty then ⟨".".toList⟩ else directory) page.output
    (String.ofList page.html).toUTF8

end Hyperlisting
