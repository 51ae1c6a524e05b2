import Hyperlisting.Composition.Markup
import Hyperlisting.Composition.Sweep
import Hyperlisting.FileTree.Change
import Hyperlisting.Page.Document
import Hyperlisting.Site.Progress

/-!
Batches: a page for every file below the root. Files are independent. A file that cannot be read,
or whose page cannot be written, is counted and passed over; any other failure stops the batch.
-/

namespace Hyperlisting

structure Batch where
  layout : Layout
  /-- In the order that breaks ties of nesting. -/
  producers : List Producer
  outline : Path → Text
  nesting : Nesting

structure Report where
  written : Nat
  failed : Nat
  /-- Files that were listed but have no page. -/
  outsideRoot : Nat
deriving DecidableEq

namespace Batch

/-- Files between two lines of progress. -/
def progressInterval : Nat := 100

def annotate (batch : Batch) (path : Path) (source : Text) : List (Text × List Run) :=
  batch.producers.map fun producer => (producer.name, producer.runs path source)

/-- The page of a source text: its runs, composed, rendered and put into a document. -/
def renderRuns (batch : Batch) (path : Path) (source : Text) (runs : List Run) :
    Except Failure Page := do
  let composition ←
    (Composition.compose source runs batch.nesting).mapError (Failure.run path)
  let output ← batch.layout.pagePath path
  batch.layout.assemble path (composition.body source output) (batch.outline path)

/-- The page of a file, or why there is none, and what was reported on the way. -/
structure Rendering where
  page : Except Failure Page
  events : List Log.Event

def renderSource (batch : Batch) (path : Path) (source : Text) : Rendering :=
  let annotated := batch.annotate path source
  { page := batch.renderRuns path source (annotated.flatMap Prod.snd)
    events := annotated.map fun (producer, runs) => .produced path producer runs.length }

def renderFile (batch : Batch) (tree : FileTree) (path : Path) : Rendering :=
  match tree.readText path with
  | .error cause => ⟨.error (.read path cause), []⟩
  | .ok source => batch.renderSource path source

def publish (batch : Batch) (path : Path) (tree : FileTree) : Rendering × FileTree :=
  let rendering := batch.renderFile tree path
  match rendering.page with
  | .error _ => (rendering, tree)
  | .ok page =>
    match page.write tree with
    | .ok () tree => ({ rendering with events := rendering.events ++ [.wrotePage page.output] }, tree)
    | .error cause tree => ({ rendering with page := .error (.write page.output cause) }, tree)

structure State where
  tree : FileTree
  progress : Progress
  written : Nat := 0
  failed : Nat := 0
  events : Array Log.Event := #[]

/-- Takes one file further; gives the failure that stops the batch, if there is one. -/
def step (batch : Batch) (state : State) (path : Path) : State × Option Failure :=
  let (rendering, tree) := batch.publish path state.tree
  let progress := state.progress.tick
  let events := state.events ++ rendering.events ++ progress.due
  match rendering.page with
  | .ok _ => ({ state with tree, progress, events, written := state.written + 1 }, none)
  | .error failure =>
    if failure.isRecoverable then
      ({ state with
          tree, progress
          failed := state.failed + 1
          events := events.push (.failed path failure) }, none)
    else ({ state with tree, progress, events }, some failure)

/-- Takes files one after the other until one stops the batch. -/
def steps (batch : Batch) (state : State) : List Path → State × Option Failure
  | [] => (state, none)
  | path :: rest =>
    match batch.step state path with
    | (state, none) => steps batch state rest
    | stopped => stopped

structure Outcome where
  tree : FileTree
  events : Array Log.Event
  result : Except Failure Report

/-- Makes the pages of those files that lie below the root. -/
def run (batch : Batch) (files : List Path) (tree : FileTree) : Outcome :=
  let (inside, outside) := files.partition (·.startsWith batch.layout.root)
  let start : State :=
    { tree
      progress := .start inside.length progressInterval
      events := (outside.map Log.Event.dependency).toArray }
  match batch.steps start inside with
  | (state, some failure) => ⟨state.tree, state.events, .error failure⟩
  | (state, none) =>
    ⟨state.tree, state.events.push state.progress.finished,
      .ok ⟨state.written, state.failed, outside.length⟩⟩

end Batch
end Hyperlisting
