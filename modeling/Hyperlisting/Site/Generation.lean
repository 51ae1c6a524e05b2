import Hyperlisting.CrossReference
import Hyperlisting.FileTree.Search
import Hyperlisting.Highlight
import Hyperlisting.Outline
import Hyperlisting.Site.Batch
import Hyperlisting.Site.Job

/-!
Generating a listing in two stages: the index of all source files at or below the library and the
target, then the pages of those below the root.
-/

namespace Hyperlisting

structure Indexing where
  index : Index := {}
  events : Array Log.Event := #[]

namespace Indexing

def add (tree : FileTree) (indexing : Indexing) (file : Path) : Indexing :=
  match tree.readText file with
  | .error cause => { indexing with events := indexing.events.push (.unreadable file cause) }
  | .ok source =>
    let index := indexing.index.addFile file source
    let found := index.declarations.size - indexing.index.declarations.size
    { index, events := indexing.events.push (.fileIndexed file found) }

/-- The index of the source files at or below some paths. All paths are searched before a file is
read. -/
def build (tree : FileTree) (paths : List Path) : Indexing :=
  let findings := paths.flatMap tree.findSources
  let unread := (findings.filterMap FileTree.Finding.unreadable?).map fun (directory, cause) =>
    Log.Event.unreadableDirectory directory cause
  (FileTree.sourcesOf findings).foldl (add tree) { events := unread.toArray }

end Indexing

/-- Why generating a listing ends early. -/
inductive Trouble where
  | output (directory : Path) (cause : SystemError)
  | page (failure : Failure)

namespace Trouble

def message : Trouble → Text
  | output directory _ => "failed to create output directory: ".toList ++ directory.text
  | page failure => failure.message

def cause? : Trouble → Option Text
  | output _ cause => some cause.message
  | page failure => failure.cause?

end Trouble

structure Generation where
  tree : FileTree
  events : Array Log.Event
  result : Except Trouble Report

namespace Job

def index (job : Job) (tree : FileTree) : Indexing :=
  let indexing := Indexing.build tree [job.library, job.target]
  { indexing with
    events := #[.indexing] ++ indexing.events ++ #[indexing.index.status, .indexingFinished] }

/-- Highlights and cross references, in this order, and the outline of the index. -/
def batch (job : Job) (index : Index) : Batch where
  layout := job.layout
  producers := [Highlight.producer, CrossReference.producer index job.layout]
  outline := Outline.panel index
  nesting := job.nesting

def closing (job : Job) (report : Report) : List Log.Event :=
  [.wrote report.written job.output] ++
    (if report.failed > 0 then [.notRendered report.failed] else []) ++ [.generatingFinished]

def pages (job : Job) (index : Index) (tree : FileTree) : Generation :=
  match ensureOutput job.output tree with
  | .error cause tree => ⟨tree, #[.generating], .error (.output job.output cause)⟩
  | .ok created tree =>
    let outcome := (job.batch index).run index.files.toList tree
    let events := #[.generating] ++ created.toArray ++ outcome.events
    match outcome.result with
    | .error failure => ⟨outcome.tree, events, .error (.page failure)⟩
    | .ok report => ⟨outcome.tree, events ++ job.closing report, .ok report⟩

def generate (job : Job) (tree : FileTree) : Generation :=
  let indexing := job.index tree
  let generation := job.pages indexing.index tree
  { generation with events := indexing.events ++ generation.events }

end Job
end Hyperlisting
