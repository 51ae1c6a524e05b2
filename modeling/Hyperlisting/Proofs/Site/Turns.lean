import Hyperlisting.Proofs.FileTree.Soundness
import Hyperlisting.Proofs.Page.Assembly
import Hyperlisting.Proofs.Site.Independence

/-! Files that are published one after the other, each in the tree that the files before it leave:
when one of them stops a batch, and what they leave behind. A file that cannot be rendered leaves
nothing, and a page changes the tree where it lands. -/

namespace Hyperlisting

open FileTree Footprint
open Worker (outcome)

namespace Batch

variable {batch : Batch} {tree : FileTree} {file : Path} {files more : List Path} {page : Page}
  {failure : Failure} {location : Location} {turn : Path × FileTree} {source : Text}
  {runs : List Run}

/-- A file cannot be rendered, and not for trouble with the file alone. -/
def Fatal (batch : Batch) (tree : FileTree) (file : Path) (failure : Failure) : Prop :=
  (batch.renderFile tree file).page = .error failure ∧ failure.isRecoverable = false

theorem renderRuns_of_fault {fault : Run.Fault}
    (faulty : Composition.compose source runs batch.nesting = .error fault) :
    batch.renderRuns file source runs = .error (.run file fault) := by
  rw [renderRuns, faulty]
  rfl

/-- Runs that compose have a page unless the layout has no path for it. -/
theorem renderRuns_of_compose {composition : Composition} (file : Path)
    (composed : Composition.compose source runs batch.nesting = .ok composition) :
    batch.renderRuns file source runs = (batch.layout.pagePath file).map fun output =>
      ⟨file, output,
        Page.around file.text (batch.outline file) (composition.body source output)⟩ := by
  rw [renderRuns, composed, Except.mapError, ok_bind]
  cases paged : batch.layout.pagePath file with
  | error failure => rfl
  | ok output => rw [ok_bind, Layout.assemble_eq, paged, Except.map, Except.map]

theorem renderRuns_eq_error_iff : batch.renderRuns file source runs = .error failure ↔
    (∃ fault, failure = .run file fault ∧
      Composition.compose source runs batch.nesting = .error fault) ∨
    (∃ composition, Composition.compose source runs batch.nesting = .ok composition) ∧
      batch.layout.pagePath file = .error failure := by
  cases composed : Composition.compose source runs batch.nesting with
  | error fault =>
    rw [renderRuns_of_fault composed]
    simp [eq_comm]
  | ok composition =>
    rw [renderRuns_of_compose file composed]
    cases batch.layout.pagePath file <;> simp [Except.map]

/-- Only what is wrong with a file itself is passed over, not what is wrong with its runs or with
the path of its page. -/
theorem isRecoverable_eq_false_of_renderRuns
    (fails : batch.renderRuns file source runs = .error failure) :
    failure.isRecoverable = false := by
  rcases renderRuns_eq_error_iff.mp fails with ⟨fault, rfl, -⟩ | ⟨-, unpaged⟩
  · rfl
  · rw [Layout.failure_of_pagePath unpaged]
    rfl

/-- A file stops a batch exactly if it can be read and one of its runs is malformed, or there is no
path for its page. -/
theorem fatal_iff : batch.Fatal tree file failure ↔ ∃ source, tree.readText file = .ok source ∧
    ((∃ fault, failure = .run file fault ∧
      Composition.compose source ((batch.annotate file source).flatMap Prod.snd) batch.nesting =
        .error fault) ∨
    (∃ composition,
      Composition.compose source ((batch.annotate file source).flatMap Prod.snd) batch.nesting =
        .ok composition) ∧ batch.layout.pagePath file = .error failure) := by
  rw [Fatal, renderFile]
  cases tree.readText file with
  | error cause =>
    constructor
    · rintro ⟨fails, stops⟩
      cases fails
      cases stops
    · rintro ⟨source, read, -⟩
      cases read
  | ok source =>
    constructor
    · rintro ⟨fails, -⟩
      exact ⟨source, rfl, renderRuns_eq_error_iff.mp fails⟩
    · rintro ⟨_, read, fails⟩
      cases read
      have fails := renderRuns_eq_error_iff.mpr fails
      exact ⟨fails, isRecoverable_eq_false_of_renderRuns fails⟩

theorem exists_page_of_compose {composition : Composition} {output : Path}
    (read : tree.readText file = .ok source)
    (composed : Composition.compose source ((batch.annotate file source).flatMap Prod.snd)
      batch.nesting = .ok composition)
    (paged : batch.layout.pagePath file = .ok output) :
    ∃ html, (batch.renderFile tree file).page = .ok ⟨file, output, html⟩ := by
  have rendered := renderRuns_of_compose file composed
  rw [paged] at rendered
  rw [renderFile, read]
  exact ⟨_, rendered⟩

/-- The files of a list, each with the tree that it finds when they are published one after the
other. -/
def turns (batch : Batch) (tree : FileTree) : List Path → List (Path × FileTree)
  | [] => []
  | file :: files => (file, tree) :: turns batch (batch.publish file tree).2 files

/-- The tree after all files of a list have been published or failed to be. -/
def publishAll (batch : Batch) (tree : FileTree) : List Path → FileTree
  | [] => tree
  | file :: files => publishAll batch (batch.publish file tree).2 files

/-- At its turn a file has a page, and the page is put at a location. -/
def LandsAt (batch : Batch) (location : Location) (turn : Path × FileTree) : Prop :=
  ∃ page, (batch.renderFile turn.2 turn.1).page = .ok page ∧ Page.LandsAt location (page, turn.2)

theorem turns_append (batch : Batch) (tree : FileTree) (files more : List Path) :
    batch.turns tree (files ++ more) =
      batch.turns tree files ++ batch.turns (batch.publishAll tree files) more := by
  induction files generalizing tree with
  | nil => rfl
  | cons file files ih => exact congrArg _ (ih _)

theorem exists_of_mem_turns (mem : turn ∈ batch.turns tree files) :
    ∃ earlier later, files = earlier ++ turn.1 :: later ∧
      turn.2 = batch.publishAll tree earlier := by
  induction files generalizing tree with
  | nil => cases mem
  | cons file files ih =>
    rcases List.mem_cons.mp mem with rfl | mem
    · exact ⟨[], files, rfl, rfl⟩
    · obtain ⟨earlier, later, rfl, found⟩ := ih mem
      exact ⟨file :: earlier, later, rfl, found⟩

theorem mem_turns (batch : Batch) (tree : FileTree) (earlier : List Path) (file : Path)
    (later : List Path) :
    (file, batch.publishAll tree earlier) ∈ batch.turns tree (earlier ++ file :: later) := by
  rw [turns_append]
  exact List.mem_append_right _ List.mem_cons_self

theorem publish_of_unrendered (unrendered : (batch.renderFile tree file).page = .error failure) :
    (batch.publish file tree).1.page = .error failure ∧ (batch.publish file tree).2 = tree := by
  rw [publish]
  simp only [unrendered, and_self]

theorem publish_of_rendered (rendered : (batch.renderFile tree file).page = .ok page) :
    (batch.publish file tree).2 = (outcome (page.write tree)).2 ∧
      ((batch.publish file tree).1.page = .ok page ∨
        ∃ cause, (batch.publish file tree).1.page = .error (.write page.output cause)) := by
  cases written : page.write tree with
  | ok value after =>
    obtain ⟨made, left⟩ := publish_of_write rendered written
    exact ⟨left, .inl made⟩
  | error cause after =>
    obtain ⟨fails, left⟩ := publish_of_unwritten rendered written
    exact ⟨left, .inr ⟨cause, fails⟩⟩

theorem step_of_fatal {state : State} (fatal : batch.Fatal state.tree file failure) :
    (batch.step state file).2 = some failure ∧ (batch.step state file).1.tree = state.tree := by
  obtain ⟨unrendered, stops⟩ := fatal
  obtain ⟨fails, left⟩ := publish_of_unrendered unrendered
  rw [step]
  dsimp only
  rw [fails]
  dsimp only
  rw [if_neg (by simp [stops]), left]
  exact ⟨rfl, rfl⟩

/-- A file that does not stop the batch is counted once. -/
theorem step_of_not_fatal {state : State}
    (goesOn : ∀ failure, ¬ batch.Fatal state.tree file failure) :
    (batch.step state file).2 = none ∧
      (batch.step state file).1.tree = (batch.publish file state.tree).2 ∧
      (batch.step state file).1.written + (batch.step state file).1.failed =
        state.written + state.failed + 1 := by
  have recovers {failure : Failure}
      (fails : (batch.publish file state.tree).1.page = .error failure)
      (recoverable : failure.isRecoverable = true) := step_of_error fails recoverable
  cases rendered : (batch.renderFile state.tree file).page with
  | error failure =>
    have recoverable : failure.isRecoverable = true :=
      Bool.eq_true_of_not_eq_false fun stops => goesOn failure ⟨rendered, stops⟩
    have fails := (publish_of_unrendered rendered).1
    obtain ⟨onward, left, written, failed⟩ := recovers fails recoverable
    exact ⟨onward, left, by omega⟩
  | ok page =>
    rcases (publish_of_rendered rendered).2 with made | ⟨cause, fails⟩
    · obtain ⟨onward, left, written, failed⟩ := step_of_ok made
      exact ⟨onward, left, by omega⟩
    · obtain ⟨onward, left, written, failed⟩ := recovers fails rfl
      exact ⟨onward, left, by omega⟩

/-- Only the page of a file changes the tree. -/
theorem publish_changes (batch : Batch) (tree : FileTree) (file : Path) :
    (batch.publish file tree).2 = tree ∨ ∃ page, (batch.renderFile tree file).page = .ok page ∧
      (batch.publish file tree).2 = (outcome (page.write tree)).2 := by
  cases rendered : (batch.renderFile tree file).page with
  | error failure => exact .inl (publish_of_unrendered rendered).2
  | ok page => exact .inr ⟨page, rfl, (publish_of_rendered rendered).1⟩

/-- Apart from where its page lands, publishing a file makes directories at most. -/
theorem get?_publish (elsewhere : ¬ batch.LandsAt location (file, tree)) :
    (batch.publish file tree).2.get? location = tree.get? location ∨
      tree.get? location = none ∧
        (batch.publish file tree).2.get? location = some .directory := by
  rcases batch.publish_changes tree file with same | ⟨page, rendered, changed⟩
  · rw [same]
    exact .inl rfl
  · rw [changed]
    have notHere : ¬ Page.LandsAt location (page, tree) := fun lands =>
      elsewhere ⟨page, rendered, lands⟩
    rcases Page.get?_of_not_landsAt notHere with same | ⟨absent, made, -⟩
    · exact .inl same
    · exact .inr ⟨absent, made⟩

theorem sound_publish (sound : tree.Sound) (file : Path) : (batch.publish file tree).2.Sound := by
  rcases batch.publish_changes tree file with same | ⟨page, -, changed⟩
  · rwa [same]
  · rw [changed]
    exact page.sound_write sound

theorem current_publish (tree : FileTree) (file : Path) :
    (batch.publish file tree).2.current = tree.current := by
  rcases batch.publish_changes tree file with same | ⟨page, -, changed⟩
  · rw [same]
  · rw [changed]
    exact page.current_write tree

theorem get?_publishAll
    (elsewhere : ∀ turn ∈ batch.turns tree files, ¬ batch.LandsAt location turn) :
    (batch.publishAll tree files).get? location = tree.get? location ∨
      tree.get? location = none ∧
        (batch.publishAll tree files).get? location = some .directory := by
  induction files generalizing tree with
  | nil => exact .inl rfl
  | cons file files ih =>
    obtain ⟨first, rest⟩ := List.forall_mem_cons.mp elsewhere
    rw [publishAll]
    rcases get?_publish first with same | ⟨absent, made⟩
    · rw [← same]
      exact ih rest
    · rcases ih rest with kept | ⟨none, -⟩
      · exact .inr ⟨absent, kept.trans made⟩
      · cases none.symm.trans made

theorem sound_publishAll (sound : tree.Sound) (files : List Path) :
    (batch.publishAll tree files).Sound := by
  induction files generalizing tree with
  | nil => exact sound
  | cons file files ih => exact ih (sound_publish sound file)

theorem current_publishAll (tree : FileTree) (files : List Path) :
    (batch.publishAll tree files).current = tree.current := by
  induction files generalizing tree with
  | nil => rfl
  | cons file files ih => exact (ih _).trans (current_publish tree file)

/-- A file on whose way no page lands stops the batch at its turn if it would have stopped it at
first. -/
theorem fatal_publishAll_iff (canonical : tree.Canonical file) (sound : tree.Sound)
    (elsewhere : ∀ location ∈ tree.route file, ∀ turn ∈ batch.turns tree files,
      ¬ batch.LandsAt location turn) :
    batch.Fatal (batch.publishAll tree files) file failure ↔ batch.Fatal tree file failure := by
  have outgrown : Outgrown tree (batch.publishAll tree files) (tree.route file) := by
    obtain ⟨-, -, -, unlinked⟩ := canonical
    exact ⟨sound_publishAll sound files, current_publishAll tree files,
      fun location mem => get?_publishAll (elsewhere location mem), unlinked⟩
  have alike : batch.RendersAlike tree (batch.publishAll tree files) file :=
    rendersAlike_of_outgrown canonical sound outgrown
  exact and_congr_left alike.error_iff

end Batch

end Hyperlisting
