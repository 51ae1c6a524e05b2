import Hyperlisting.Proofs.FileTree.Temporary
import Hyperlisting.Site.Batch

/-! Workers that share a file tree. A worker is what it still has to do: every step changes the tree
that it finds, and what it found decides how to go on. Left alone, a worker does what publishing its
file does. -/

namespace Hyperlisting

inductive Worker (α : Type) where
  | done (result : α)
  | step (change : FileTree → FileTree) (rest : FileTree → Worker α)

namespace Worker

variable {α β γ : Type} {tree : FileTree}

def bind : Worker α → (α → Worker β) → Worker β
  | done result, next => next result
  | step change rest, next => step change fun tree => (rest tree).bind next

theorem bind_assoc (worker : Worker α) (next : α → Worker β) (last : β → Worker γ) :
    (worker.bind next).bind last = worker.bind fun result => (next result).bind last := by
  induction worker with
  | done result => rfl
  | step change rest ih => exact congrArg (step change) (funext ih)

/-- The result and the tree of a worker with no other worker's steps between its own. -/
def alone : Worker α → FileTree → α × FileTree
  | done result, tree => (result, tree)
  | step change rest, tree => (rest tree).alone (change tree)

theorem alone_bind (worker : Worker α) (next : α → Worker β) (tree : FileTree) :
    (worker.bind next).alone tree =
      (next (worker.alone tree).1).alone (worker.alone tree).2 := by
  induction worker generalizing tree with
  | done result => rfl
  | step change rest ih => exact ih tree (change tree)

def outcome : EStateM.Result SystemError FileTree α → Except SystemError α × FileTree
  | .ok value tree => (.ok value, tree)
  | .error cause tree => (.error cause, tree)

/-- A file step that no other worker's step can come between. -/
def once (action : FileStep α) : Worker (Except SystemError α) :=
  step (fun tree => (outcome (action tree)).2) fun tree => done (outcome (action tree)).1

theorem alone_once (action : FileStep α) (tree : FileTree) :
    (once action).alone tree = outcome (action tree) := rfl

/-- Goes on unless the first part fails. -/
def andThen (worker : Worker (Except SystemError α)) (next : α → Worker (Except SystemError β)) :
    Worker (Except SystemError β) :=
  worker.bind fun
    | .ok value => next value
    | .error cause => done (.error cause)

theorem alone_andThen {worker : Worker (Except SystemError α)} {action : FileStep α}
    {next : α → Worker (Except SystemError β)} {others : α → FileStep β}
    (same : worker.alone tree = outcome (action tree))
    (onward : ∀ value after, action tree = .ok value after →
      (next value).alone after = outcome (others value after)) :
    (worker.andThen next).alone tree = outcome ((action >>= others) tree) := by
  rw [andThen, alone_bind, same, FileStep.bind_apply]
  cases ends : action tree with
  | ok value after => exact onward value after ends
  | error cause after => rfl

open FileTree (makeDirectory ancestry createNamed fill moveFile)

/-- After an attempt to make a directory: it may be there already, and another worker may have made
it. -/
def settle (path : Path) : Except SystemError Unit → Worker (Except SystemError Unit)
  | .error .alreadyExists =>
    step id fun tree =>
      done (if tree.isDirectory path then .ok () else .error .alreadyExists)
  | made => done made

def makeNested : List Path → Worker (Except SystemError Unit)
  | [] => done (.ok ())
  | path :: outer =>
    (once (makeDirectory path)).bind fun
      | .error .notFound =>
        (makeNested outer).andThen fun () => (once (makeDirectory path)).bind (settle path)
      | made => settle path made

/-- Puts a whole file where a path leads, by way of a file of the given name next to it. -/
def replace (directory path : Path) (content : ByteArray) (name : OsText) :
    Worker (Except SystemError Unit) :=
  (once (createNamed directory name)).andThen fun location =>
  ((once (fill location content)).andThen fun () => once (moveFile location path)).bind fun
    | .ok () => done (.ok ())
    | .error cause => step (·.erase location) fun _ => done (.error cause)

/-- The directory around a page, as the page's own path has it. -/
def directoryOf (output : Path) : Path := output.parent?.getD ⟨".".toList⟩

/-- A path that leads to a directory, also if its text is empty. -/
def spelled (directory : Path) : Path := if directory.bytes.isEmpty then ⟨".".toList⟩ else directory

def write (page : Page) (name : OsText) : Worker (Except SystemError Unit) :=
  (makeNested (ancestry (directoryOf page.output))).andThen fun () =>
    replace (spelled (directoryOf page.output)) page.output (String.ofList page.html).toUTF8 name

/-- Reads a file and renders it in one step, and writes its page in more. -/
def publish (batch : Batch) (name : OsText) (file : Path) : Worker (Except Failure Page) :=
  step id fun tree =>
    match (batch.renderFile tree file).page with
    | .error failure => done (.error failure)
    | .ok page =>
      (write page name).bind fun
        | .ok () => done (.ok page)
        | .error cause => done (.error (.write page.output cause))

/-- What an attempt to make a directory comes to when it was there already. -/
def settled (path : Path) :
    EStateM.Result SystemError FileTree Unit → EStateM.Result SystemError FileTree Unit
  | .error .alreadyExists tree =>
    if tree.isDirectory path then .ok () tree else .error .alreadyExists tree
  | made => made

theorem makeNested_cons (path : Path) (outer : List Path) (tree : FileTree) :
    FileTree.makeNested (path :: outer) tree =
      match makeDirectory path tree with
      | .error .notFound after =>
        match FileTree.makeNested outer after with
        | .ok () around => settled path (makeDirectory path around)
        | .error cause around => .error cause around
      | made => settled path made := by
  rw [FileTree.makeNested]
  beta_reduce
  cases makeDirectory path tree with
  | ok value after => rfl
  | error cause after =>
    cases cause with
    | notFound =>
      dsimp only
      cases FileTree.makeNested outer after with
      | error cause around => rfl
      | ok value around =>
        dsimp only
        cases makeDirectory path around with
        | ok value made => rfl
        | error cause failed => cases cause <;> rfl
    | _ => rfl

theorem alone_settle (path : Path) (made : EStateM.Result SystemError FileTree Unit) :
    (settle path (outcome made).1).alone (outcome made).2 = outcome (settled path made) := by
  cases made with
  | ok value tree => rfl
  | error cause tree =>
    cases cause with
    | alreadyExists =>
      rw [settled]
      change (if tree.isDirectory path then _ else _, tree) = _
      split <;> rfl
    | _ => rfl

theorem alone_makeNested (paths : List Path) (tree : FileTree) :
    (makeNested paths).alone tree = outcome (FileTree.makeNested paths tree) := by
  induction paths generalizing tree with
  | nil => rfl
  | cons path outer ih =>
    rw [makeNested, alone_bind, alone_once, makeNested_cons]
    have goesOn (made : EStateM.Result SystemError FileTree Unit) :=
      alone_settle path made
    cases made : makeDirectory path tree with
    | ok value after => exact goesOn (.ok value after)
    | error cause after =>
      cases cause with
      | notFound =>
        dsimp only [outcome]
        rw [andThen, alone_bind, ih after]
        cases FileTree.makeNested outer after with
        | error cause around => rfl
        | ok value around => exact goesOn (makeDirectory path around)
      | _ => exact goesOn (.error _ after)

theorem alone_replace {directory path : Path} {content : ByteArray} {name : OsText}
    (chosen : ∀ place, tree.resolve directory = .ok place → name = tree.freshName place) :
    (replace directory path content name).alone tree =
      outcome (FileTree.replaceFile directory path content tree) := by
  rw [replace, FileTree.replaceFile]
  refine @alone_andThen _ _ tree _ (FileTree.makeTemporary directory) _ _ ?_
    fun location after _ => ?_
  · rw [alone_once, FileTree.makeTemporary_eq chosen]
  · have both : ((once (fill location content)).andThen fun () =>
        once (moveFile location path)).alone after =
          outcome ((fill location content >>= fun () => moveFile location path) after) :=
      alone_andThen (alone_once ..) fun _ _ _ => alone_once ..
    rw [alone_bind, both, FileStep.tryCatch_apply]
    cases (fill location content >>= fun () => moveFile location path) after with
    | ok value after => rfl
    | error cause after => rfl

/-- The name is the one that a worker alone would choose for the unfinished page. -/
def Chosen (page : Page) (name : OsText) (tree : FileTree) : Prop :=
  ∀ made place, FileTree.makeDirectories (directoryOf page.output) tree = .ok () made →
    made.resolve (spelled (directoryOf page.output)) = .ok place → name = made.freshName place

theorem alone_write {page : Page} {name : OsText} (chosen : Chosen page name tree) :
    (write page name).alone tree = outcome (page.write tree) :=
  alone_andThen (alone_makeNested _ tree) fun _ made makes =>
    alone_replace fun place resolved => chosen made place makes resolved

theorem alone_publish {batch : Batch} {name : OsText} {file : Path}
    (chosen : ∀ page, (batch.renderFile tree file).page = .ok page → Chosen page name tree) :
    (publish batch name file).alone tree =
      ((batch.publish file tree).1.page, (batch.publish file tree).2) := by
  rw [publish, alone, Batch.publish]
  cases rendered : (batch.renderFile tree file).page with
  | error failure => simp only [alone, rendered]; rfl
  | ok page =>
    dsimp only
    rw [alone_bind]
    rw [id, alone_write (chosen page rendered)]
    cases page.write tree with
    | ok value after => rfl
    | error cause after => rfl

end Worker
end Hyperlisting
