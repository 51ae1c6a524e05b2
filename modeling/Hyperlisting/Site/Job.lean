import Hyperlisting.Composition
import Hyperlisting.FileTree.Change
import Hyperlisting.Log

/-!
Jobs: what to index, what to render and where to put it, checked against the tree before any work
starts. The library is indexed only; pages are made for what lies below the root, which is the
target or, for a target file, the directory around it.
-/

namespace Hyperlisting

structure Request where
  library : Path
  target : Path
  /-- Relative to the current directory. -/
  output : Option Path := none
  nesting : Nesting := .linksInnermost
  /-- Workers; zero stands for as many as there are processors. -/
  workers : Nat := 0

/-- A request that holds: paths are canonical and the output path is absolute. -/
structure Job where
  library : Path
  target : Path
  root : Path
  output : Path
  nesting : Nesting
  workers : Nat
deriving DecidableEq

namespace Job

inductive Fault where
  | unreadable (path : Path)
  | notDirectory (path : Path)
  | withoutParent (path : Path)
deriving DecidableEq

def Fault.message : Fault → Text
  | unreadable path => "Path not found or not readable: ".toList ++ path.text
  | notDirectory path => "Not a directory: ".toList ++ path.text
  | withoutParent path => path.text ++ " has no parent directory".toList

def defaultOutput : Path := ⟨"html".toList⟩

def checkReadable (tree : FileTree) (path : Path) : Except Fault Path :=
  (tree.canonical path).mapError fun _ => .unreadable path

def rootOf (tree : FileTree) (target : Path) : Except Fault Path :=
  if tree.isFile target then
    match target.parent? with
    | some parent => .ok parent
    | none => .error (.withoutParent target)
  else .ok target

/-- Checks a request. The target is looked at before the library. -/
def ofRequest (tree : FileTree) (request : Request) : Except Fault Job := do
  let target ← checkReadable tree request.target
  let library ← checkReadable tree request.library
  if !tree.isDirectory library then throw (.notDirectory library)
  let root ← rootOf tree target
  let output := (FileTree.pathOf tree.current).join (request.output.getD defaultOutput)
  return { library, target, root, output, nesting := request.nesting, workers := request.workers }

def layout (job : Job) : Layout := ⟨job.root, job.output⟩

end Job

/-- Makes the output directory unless it is there, and reports it if it had to be made. -/
def ensureOutput (directory : Path) : FileStep (List Log.Event) := fun tree =>
  if tree.isDirectory directory then .ok [] tree
  else (FileTree.makeDirectories directory *> pure [.createdDirectory directory]) tree

end Hyperlisting
