import Hyperlisting.Proofs.FileTree.Nested
import Hyperlisting.Proofs.Site.Independence

/-! Publishing files again. In a tree of files and directories alone, what keeps a page from its place
stays there, and what was made for it stays too: so once all files of a batch have been published,
another batch of the same files writes the same pages, fails at the same files, and changes nothing. -/

namespace Hyperlisting

open FileTree Footprint

namespace FileTree

variable {tree after : FileTree} {place : Location} {steps : List Path.Component}
  {step : Path.Component}

theorem Kept.startOfPath_eq (kept : tree.Kept after) (path : Path) :
    after.startOfPath path = tree.startOfPath path := by
  rw [startOfPath, startOfPath, kept.current]

theorem Kept.takes_eq (kept : tree.Kept after) (content : ByteArray) :
    after.takes content = tree.takes content := by
  rw [takes, takes, kept.room]

theorem Kept.destination_eq (kept : tree.Kept after) (path : Path) :
    after.destination path = tree.destination path := by
  rw [destination, destination, kept.startOfPath_eq]

theorem Kept.directory_start (kept : tree.Kept after) (sound : after.Sound) (path : Path) :
    after.get? (tree.startOfPath path) = some .directory := by
  rw [← kept.startOfPath_eq]
  exact sound.startOfPath path

section Kept

variable (kept : tree.Kept after) (plain : tree.Plain)

include kept plain

/-- What stands in the way of a step stays there. -/
theorem Kept.isFree (free : after.isFree place step = true) : tree.isFree place step = true := by
  cases step with
  | root | current | parent => rfl
  | name name =>
    simp only [FileTree.isFree, Bool.and_eq_true] at free ⊢
    refine ⟨free.1, ?_⟩
    cases found : tree.get? (place ++ [name]) with
    | none => rfl
    | some entry =>
      cases entry with
      | directory => rfl
      | link target => exact absurd found (plain.unlinked _ target)
      | file content =>
        obtain ⟨_, isFile⟩ := kept.file found
        simp [isFile] at free

theorem Kept.clear (clear : after.clear place steps = true) : tree.clear place steps = true := by
  induction steps generalizing place with
  | nil => rfl
  | cons step steps ih =>
    rw [FileTree.clear, Bool.and_eq_true] at clear ⊢
    exact ⟨kept.isFree plain clear.1, ih clear.2⟩

omit plain in
/-- A free step leads to a directory, once that is made if it was missing. -/
theorem Kept.directory_onward (sound : after.Sound)
    (directory : after.get? place = some .directory) (free : tree.isFree place step = true)
    (made : tree.get? (onward place step) = none →
      after.get? (onward place step) = some .directory) :
    after.get? (onward place step) = some .directory := by
  cases step with
  | root | current | parent => exact sound.directory_dropLast directory
  | name name =>
    simp only [FileTree.isFree, Bool.and_eq_true] at free
    change tree.get? (place ++ [name]) = none → after.get? (place ++ [name]) = _ at made
    change after.get? (place ++ [name]) = _
    cases found : tree.get? (place ++ [name]) with
    | none => exact made found
    | some entry =>
      rw [found] at free
      cases entry with
      | directory => exact kept.directory found
      | file content => simp at free
      | link target => simp at free

omit plain in
theorem Kept.built_cons (sound : after.Sound) (directory : after.get? place = some .directory)
    (free : tree.isFree place step = true) (built : Built tree after place (step :: steps)) :
    after.get? (onward place step) = some .directory ∧
      Built tree after (onward place step) steps := by
  unfold Built missing at built
  rw [if_pos free, List.forall_mem_append] at built
  refine ⟨kept.directory_onward sound directory free fun absent => built.1 _ ?_, built.2⟩
  simp [absent]

/-- Once all that was missing on a way has been made, nothing is missing. -/
theorem Kept.missing_eq_nil (sound : after.Sound) (directory : after.get? place = some .directory)
    (built : Built tree after place steps) : missing after place steps = [] := by
  induction steps generalizing place with
  | nil => rfl
  | cons step steps ih =>
    rw [missing]
    split
    · rename_i free
      obtain ⟨next, built⟩ := kept.built_cons sound directory (kept.isFree plain free) built
      simp [next, ih next built]
    · rfl

omit plain in
theorem Kept.clear_of_built (sound : after.Sound) (directory : after.get? place = some .directory)
    (clear : tree.clear place steps = true) (built : Built tree after place steps) :
    after.clear place steps = true := by
  induction steps generalizing place with
  | nil => rfl
  | cons step steps ih =>
    rw [FileTree.clear, Bool.and_eq_true] at clear ⊢
    obtain ⟨next, built⟩ := kept.built_cons sound directory clear.1 built
    refine ⟨?_, ih next clear.2 built⟩
    cases step with
    | root | current | parent => rfl
    | name name =>
      have short := clear.1
      simp only [FileTree.isFree, Bool.and_eq_true] at short ⊢
      change after.get? (place ++ [name]) = _ at next
      exact ⟨short.1, by rw [next]⟩

end Kept

end FileTree

namespace Footprint

variable {tree after : FileTree} {path : Path} {last : OsText}

section Kept

variable (kept : tree.Kept after) (plain : tree.Plain) (sound : after.Sound)
  (made : ∀ place ∈ wantedAbove tree path, after.get? place = some .directory)

include kept plain sound made

/-- Once the directories above a page have been made, none are to be made. -/
theorem wantedAbove_eq_nil : wantedAbove after path = [] := by
  unfold wantedAbove at made ⊢
  split
  · rename_i accepted
    rw [accepted] at made
    rw [kept.startOfPath_eq]
    exact kept.missing_eq_nil plain sound (kept.directory_start sound path) made
  · rfl

/-- Whether a page is admitted is the same once the directories above it have been made, if no
directory has come to its place. -/
theorem admits_iff (named : path.steps.getLast? = some (.name last))
    (page : Admits tree path content → after.get? (tree.destination path) ≠ some .directory) :
    Admits tree path content ↔ Admits after path content := by
  have ends := kept.destination_eq path
  constructor
  · intro admits
    have vacant := page admits
    obtain ⟨clear, ⟨accepted, short, -⟩, -, takes⟩ := admits
    have built := made
    rw [wantedAbove_eq named (refuse_parent? (parent?_eq_directoryOf named) accepted)] at built
    refine ⟨?_, ⟨accepted, short, ends ▸ vacant⟩, ?_, kept.takes_eq content ▸ takes⟩
    · rw [kept.startOfPath_eq]
      exact kept.clear_of_built sound (kept.directory_start sound path) clear built
    · rw [wantedAbove_eq_nil kept plain sound made]
      exact List.not_mem_nil
  · rintro ⟨clear, ⟨accepted, short, vacant⟩, free, takes⟩
    rw [kept.startOfPath_eq] at clear
    rw [ends] at vacant
    refine ⟨kept.clear plain clear, ⟨accepted, short, ?_⟩, ?_, kept.takes_eq content ▸ takes⟩
    · exact fun directory => vacant (kept.directory directory)
    · exact fun wanted => vacant (made _ wanted)

end Kept

end Footprint

/-- A place whose name is one of a page. -/
def IsPagePlace (place : Location) : Prop :=
  ∃ directory name, place = directory ++ [name ++ Layout.pageSuffix]

/-- What publishing files makes of a plain tree: every entry is kept, and files that are not as they
were have names of pages. -/
structure FileTree.Enriched (tree after : FileTree) : Prop where
  plain : after.Plain
  kept : tree.Kept after
  files {place : Location} {content : ByteArray} : after.get? place = some (.file content) →
    tree.get? place = some (.file content) ∨ IsPagePlace place

theorem Layout.isPagePlace_destination {layout : Layout} {file output : Path}
    (paged : layout.pagePath file = .ok output) (tree : FileTree) :
    IsPagePlace (tree.destination output) := by
  obtain ⟨-, last, named⟩ := tidy_pagePath paged
  exact ⟨_, last, destination_eq named tree⟩

namespace FileTree

variable {tree after later : FileTree} {place location : Location} {content : ByteArray}

theorem Widened.enriched (widened : tree.Widened after) : tree.Enriched after where
  plain := widened.plain
  kept := widened.kept
  files {place _} isFile := by
    rcases widened.grown place with same | ⟨_, made⟩
    · exact .inl (same.symm.trans isFile)
    · cases made.symm.trans isFile

theorem Enriched.refl (plain : tree.Plain) : tree.Enriched tree := (Widened.refl plain).enriched

theorem Enriched.trans (enriched : tree.Enriched after) (more : after.Enriched later) :
    tree.Enriched later where
  plain := more.plain
  kept := enriched.kept.trans more.kept
  files isFile := (more.files isFile).elim enriched.files .inr

section Enriched

variable (enriched : tree.Enriched after) (noPage : ¬ IsPagePlace location)

include enriched noPage

/-- A file whose name is none of a page is as it was. -/
theorem Enriched.file_iff : after.get? location = some (.file content) ↔
    tree.get? location = some (.file content) := by
  have back {content : ByteArray} (isFile : after.get? location = some (.file content)) :
      tree.get? location = some (.file content) := (enriched.files isFile).resolve_right noPage
  refine ⟨back, fun isFile => ?_⟩
  obtain ⟨other, stands⟩ := enriched.kept.file isFile
  rw [stands, ← back stands, isFile]

theorem Enriched.readText_iff {text : Text} (plain : tree.Plain)
    (fits : ∀ name ∈ location, Path.IsFileName name) :
    after.readText (pathOf location) = .ok text ↔ tree.readText (pathOf location) = .ok text := by
  rw [enriched.plain.readText_pathOf fits, plain.readText_pathOf fits]
  simp only [enriched.file_iff noPage]

end Enriched

end FileTree

namespace Batch

variable {batch : Batch} {files todo : List Path} {tree after : FileTree} {file other output : Path}
  {place : Location} {page : Page}

theorem names_of_mem_passed {start : Location} {steps : List Path.Component}
    (startFits : ∀ name ∈ start, Path.IsFileName name)
    (fits : ∀ name, .name name ∈ steps → Path.IsFileName name) (mem : place ∈ passed start steps) :
    ∀ name ∈ place, Path.IsFileName name := by
  induction steps generalizing start with
  | nil => cases mem
  | cons step steps ih =>
    have next : ∀ name ∈ onward start step, Path.IsFileName name := by
      cases step with
      | name name =>
        have fit := fits name List.mem_cons_self
        exact List.forall_mem_append.mpr ⟨startFits, List.forall_mem_singleton.mpr fit⟩
      | root | current | parent => exact fun name mem => startFits name (List.dropLast_subset _ mem)
    rcases List.mem_cons.mp mem with rfl | later
    · exact next
    · exact ih next (fun name mem => fits name (List.mem_cons_of_mem _ mem)) later

theorem names_of_touches (plain : tree.Plain) (touches : batch.Touches tree file place) :
    ∀ name ∈ place, Path.IsFileName name := by
  obtain ⟨page, rendered, touched⟩ := touches
  have onRoute : place ∈ tree.route page.output := by
    rcases touched with ⟨-, rfl⟩ | wanted
    · exact destination_mem_route_page rendered
    · exact passed_dropLast_subset _ _ (missing_subset_passed _ _ _ (wantedAbove_subset wanted))
  have start := plain.named (Option.ne_none_iff_exists'.mpr ⟨_, plain.sound.startOfPath page.output⟩)
  exact names_of_mem_passed start (fun _ => Path.isFileName_of_mem) onRoute


section Publishes

variable (publishes : batch.Publishes tree file tree after)

include publishes

/-- Publishing puts a page where no directory was, and directories where nothing was. -/
theorem Publishes.touched (touches : batch.Touches tree file place) :
    (tree.get? place ≠ some .directory ∧ IsPagePlace place ∧
        ∃ content, after.get? place = some (.file content)) ∨
      tree.get? place = none ∧ after.get? place = some .directory := by
  obtain ⟨page, rendered, ⟨admits, rfl⟩ | wanted⟩ := touches
  · have paged := pagePath_of_renderFile rendered
    exact .inl ⟨admits.receives.vacant, Layout.isPagePlace_destination paged tree, _,
      publishes.written page rendered admits⟩
  · exact .inr ⟨get?_of_mem_missing (wantedAbove_subset wanted),
      publishes.made page rendered place wanted⟩

theorem Publishes.kept : tree.Kept after where
  current := publishes.current
  room := publishes.room
  directory {place} directory := by
    by_cases touches : batch.Touches tree file place
    · rcases publishes.touched touches with ⟨vacant, -⟩ | ⟨absent, -⟩
      · exact absurd directory vacant
      · cases absent.symm.trans directory
    · exact (publishes.elsewhere place touches).trans directory
  file {place content} isFile := by
    by_cases touches : batch.Touches tree file place
    · rcases publishes.touched touches with ⟨-, -, written⟩ | ⟨absent, -⟩
      · exact written
      · cases absent.symm.trans isFile
    · exact ⟨content, (publishes.elsewhere place touches).trans isFile⟩

theorem Publishes.enriched (plain : tree.Plain) : tree.Enriched after where
  plain := {
    sound := publishes.sound
    unlinked place target := by
      by_cases touches : batch.Touches tree file place
      · rcases publishes.touched touches with ⟨-, -, content, written⟩ | ⟨-, made⟩
        · simp [written]
        · simp [made]
      · rw [publishes.elsewhere place touches]
        exact plain.unlinked place target
    named {place} found := by
      by_cases touches : batch.Touches tree file place
      · exact names_of_touches plain touches
      · rw [publishes.elsewhere place touches] at found
        exact plain.named found }
  kept := publishes.kept
  files {place content} isFile := by
    by_cases touches : batch.Touches tree file place
    · rcases publishes.touched touches with ⟨-, isPage, -⟩ | ⟨-, made⟩
      · exact .inr isPage
      · cases made.symm.trans isFile
    · exact .inl ((publishes.elsewhere place touches).symm.trans isFile)

end Publishes

/-- Files that lie at places of their own, none with the name of a page, and whose pages lie at
places of their own too. -/
structure Steady (batch : Batch) (files : List Path) : Prop where
  located : ∀ file ∈ files, ∃ location, file = pathOf location ∧
    (∀ name ∈ location, Path.IsFileName name) ∧ ¬ IsPagePlace location
  recoverable : ∀ file ∈ files, ∀ tree failure,
    (batch.renderFile tree file).page = .error failure → failure.isRecoverable = true
  apart : ∀ file ∈ files, ∀ other ∈ files, file ≠ other → ∀ output otherOutput,
    batch.layout.pagePath file = .ok output → batch.layout.pagePath other = .ok otherOutput →
      ∀ tree : FileTree, tree.destination output ≠ tree.destination otherOutput

/-- Nothing is left to do for a file: its page is in its place unless something keeps it from there,
and so are the directories on the way. -/
structure Final (batch : Batch) (tree : FileTree) (file : Path) : Prop where
  way : ∀ page, (batch.renderFile tree file).page = .ok page → wantedAbove tree page.output = []
  page : ∀ page, (batch.renderFile tree file).page = .ok page →
    Admits tree page.output (String.ofList page.html).toUTF8 →
    tree.get? (tree.destination page.output) = some (.file (String.ofList page.html).toUTF8)

/-- Publishing a file for which nothing is left to do changes nothing. -/
theorem Final.get?_eq (final : batch.Final tree file)
    (publishes : batch.Publishes tree file tree after) (place : Location) : after.get? place = tree.get? place := by
  by_cases touches : batch.Touches tree file place
  · obtain ⟨page, rendered, ⟨admits, rfl⟩ | wanted⟩ := touches
    · rw [publishes.written page rendered admits, final.page page rendered admits]
    · rw [final.way page rendered] at wanted
      cases wanted
  · exact publishes.elsewhere place touches

section Steady

variable (steady : batch.Steady files)

include steady

theorem Steady.publishes (mem : file ∈ files) (plain : tree.Plain) :
    batch.Publishes tree file tree (batch.publish file tree).2 ∧
      Verdict (batch.Writes tree file) (batch.publish file tree).1.page := by
  obtain ⟨location, rfl, fits, -⟩ := steady.located file mem
  exact publishes_publish ⟨location, rfl, fits, (plain.outgrown _).unlinked⟩ plain.sound
    (fun name => plain.outgrown _) rfl (fun _ _ => rfl) (steady.recoverable _ mem tree)

theorem Steady.succeeds_iff (mem : file ∈ files) (plain : tree.Plain) :
    batch.succeeds tree file = true ↔ batch.Writes tree file :=
  succeeds_iff_of_verdict (steady.publishes mem plain).2

theorem Steady.renderFile_iff (mem : file ∈ files) (plain : tree.Plain)
    (enriched : tree.Enriched after) :
    (batch.renderFile after file).page = .ok page ↔ (batch.renderFile tree file).page = .ok page := by
  obtain ⟨location, rfl, fits, noPage⟩ := steady.located file mem
  exact (rendersAlike_of_readText fun _ => enriched.readText_iff noPage plain fits).ok_iff

/-- Once the directories on the way have been made, and the page has come to its place if it is
admitted there, nothing is left to do. -/
theorem Steady.final (mem : file ∈ files) (plain : tree.Plain) (enriched : tree.Enriched after)
    (made : ∀ page, (batch.renderFile tree file).page = .ok page →
      ∀ place ∈ wantedAbove tree page.output, after.get? place = some .directory)
    (written : ∀ page, (batch.renderFile tree file).page = .ok page →
      Admits tree page.output (String.ofList page.html).toUTF8 →
      after.get? (tree.destination page.output) = some (.file (String.ofList page.html).toUTF8)) :
    batch.Final after file ∧ (batch.Writes tree file ↔ batch.Writes after file) := by
  have same {page : Page} : (batch.renderFile after file).page = .ok page ↔
      (batch.renderFile tree file).page = .ok page := steady.renderFile_iff mem plain enriched
  have admits {page : Page} (rendered : (batch.renderFile tree file).page = .ok page) :
      Admits tree page.output (String.ofList page.html).toUTF8 ↔
        Admits after page.output (String.ofList page.html).toUTF8 := by
    obtain ⟨-, last, named⟩ := Layout.tidy_pagePath (pagePath_of_renderFile rendered)
    refine admits_iff enriched.kept plain enriched.plain.sound (made page rendered) named ?_
    exact fun admits => by simp [written page rendered admits]
  refine ⟨⟨fun page rendered => ?_, fun page rendered admitted => ?_⟩, ?_⟩
  · exact wantedAbove_eq_nil enriched.kept plain enriched.plain.sound
      (made page (same.mp rendered))
  · rw [enriched.kept.destination_eq]
    exact written page (same.mp rendered) ((admits (same.mp rendered)).mpr admitted)
  · constructor
    · rintro ⟨page, rendered, admitted⟩
      exact ⟨page, same.mpr rendered, (admits rendered).mp admitted⟩
    · rintro ⟨page, rendered, admitted⟩
      exact ⟨page, same.mp rendered, (admits (same.mp rendered)).mpr admitted⟩

/-- Publishing a file leaves nothing to do for it. -/
theorem Steady.final_publish (mem : file ∈ files) (plain : tree.Plain)
    (publishes : batch.Publishes tree file tree after) :
    batch.Final after file ∧ (batch.Writes tree file ↔ batch.Writes after file) :=
  steady.final mem plain (publishes.enriched plain) publishes.made publishes.written

/-- Publishing a file leaves as it is what was done for others. -/
theorem Steady.final_other (mem : file ∈ files) (otherMem : other ∈ files) (plain : tree.Plain)
    (publishes : batch.Publishes tree file tree after) (final : batch.Final tree other) :
    batch.Final after other ∧ (batch.Writes tree other ↔ batch.Writes after other) := by
  by_cases same : other = file
  · subst same
    exact steady.final_publish mem plain publishes
  · refine steady.final otherMem plain (publishes.enriched plain) ?_ fun page rendered admits => ?_
    · intro page rendered place wanted
      rw [final.way page rendered] at wanted
      cases wanted
    · have stands := final.page page rendered admits
      rw [publishes.elsewhere _ ?_, stands]
      rintro ⟨filePage, fileRendered, ⟨-, lands⟩ | wanted⟩
      · exact steady.apart other otherMem file mem same _ _ (pagePath_of_renderFile rendered)
          (pagePath_of_renderFile fileRendered) tree lands
      · cases (get?_of_mem_missing (wantedAbove_subset wanted)).symm.trans stands

omit steady in
/-- What publishing some files comes to: nothing is left to do for them, nor for those for which
nothing was left to do before, and each is counted as another run would count it. -/
structure Finishes (batch : Batch) (files todo : List Path) (state ends : State) : Prop where
  enriched : state.tree.Enriched ends.tree
  final : ∀ file ∈ todo, batch.Final ends.tree file
  keeps : ∀ file ∈ files, batch.Final state.tree file →
    batch.Final ends.tree file ∧ (batch.Writes state.tree file ↔ batch.Writes ends.tree file)
  written : ends.written = state.written + todo.countP (batch.succeeds ends.tree)
  failed : ends.failed = state.failed + todo.countP (!batch.succeeds ends.tree ·)
  same : (∀ file ∈ todo, batch.Final state.tree file) →
    ∀ place, ends.tree.get? place = state.tree.get? place

theorem Steady.finishes_steps {state : State} (subset : todo ⊆ files) (plain : state.tree.Plain) :
    ∃ ends, batch.steps state todo = (ends, none) ∧ batch.Finishes files todo state ends := by
  induction todo generalizing state with
  | nil =>
    refine ⟨state, rfl, .refl plain, ?_, fun _ _ final => ⟨final, Iff.rfl⟩, rfl, rfl, fun _ _ => rfl⟩
    exact fun _ none => absurd none List.not_mem_nil
  | cons file todo ih =>
    obtain ⟨mem, rest⟩ := List.cons_subset.mp subset
    obtain ⟨publishes, verdict⟩ := steady.publishes mem plain
    rw [← steady.succeeds_iff mem plain] at verdict
    obtain ⟨goesOn, tree, written, failed⟩ := step_of_verdict verdict
    rw [← tree] at publishes
    have enriched := publishes.enriched plain
    obtain ⟨ends, through, finishes⟩ := ih rest enriched.plain
    obtain ⟨final, writes⟩ := steady.final_publish mem plain publishes
    obtain ⟨finalEnds, writesEnds⟩ := finishes.keeps file mem final
    have counted : batch.succeeds state.tree file = batch.succeeds ends.tree file := by
      rw [Bool.eq_iff_iff, steady.succeeds_iff mem plain, writes, writesEnds,
        steady.succeeds_iff mem finishes.enriched.plain]
    refine ⟨ends, by rw [steps_of_step goesOn, through], enriched.trans finishes.enriched,
      List.forall_mem_cons.mpr ⟨finalEnds, finishes.final⟩, fun other otherMem final => ?_, ?_, ?_,
      fun final place => ?_⟩
    · obtain ⟨final, writes⟩ := steady.final_other mem otherMem plain publishes final
      obtain ⟨finalEnds, writesEnds⟩ := finishes.keeps other otherMem final
      exact ⟨finalEnds, writes.trans writesEnds⟩
    · rw [finishes.written, written, counted, List.countP_cons]
      omega
    · rw [finishes.failed, failed, counted, List.countP_cons]
      omega
    · obtain ⟨finalFile, finalRest⟩ := List.forall_mem_cons.mp final
      rw [finishes.same fun other otherMem =>
        (steady.final_other mem (rest otherMem) plain publishes (finalRest other otherMem)).1]
      exact finalFile.get?_eq publishes place

end Steady

theorem finishes_run (steady : batch.Steady (batch.inside files)) (plain : tree.Plain) :
    ∃ ends, batch.Finishes (batch.inside files) (batch.inside files) (batch.starting files tree) ends ∧
      (batch.run files tree).tree = ends.tree ∧
      (batch.run files tree).result = .ok ⟨ends.written, ends.failed,
        (files.filter (!·.startsWith batch.layout.root)).length⟩ := by
  have start : (batch.starting files tree).tree.Plain := plain
  obtain ⟨ends, through, finishes⟩ := steady.finishes_steps (List.Subset.refl _) start
  rw [run_of_steps through]
  exact ⟨ends, finishes, rfl, rfl⟩

/-- A batch that is run again, in the tree that it has come to, comes to the same. -/
theorem run_again (steady : batch.Steady (batch.inside files)) (plain : tree.Plain) :
    tree.Enriched (batch.run files tree).tree ∧
      (batch.run files (batch.run files tree).tree).result = (batch.run files tree).result ∧
      ∀ place, (batch.run files (batch.run files tree).tree).tree.get? place =
        (batch.run files tree).tree.get? place := by
  obtain ⟨ends, finishes, treeEq, resultEq⟩ := finishes_run steady plain
  obtain ⟨later, again, laterTree, laterResult⟩ := finishes_run steady finishes.enriched.plain
  rw [treeEq, resultEq, laterTree, laterResult]
  have counted (file : Path) (mem : file ∈ batch.inside files) :
      batch.succeeds later.tree file = batch.succeeds ends.tree file := by
    rw [Bool.eq_iff_iff, steady.succeeds_iff mem again.enriched.plain,
      steady.succeeds_iff mem finishes.enriched.plain]
    exact (again.keeps file mem (finishes.final file mem)).2.symm
  have written : later.written = ends.written := by
    rw [again.written, finishes.written, List.countP_congr fun file mem => by rw [counted file mem]]
    rfl
  have failed : later.failed = ends.failed := by
    rw [again.failed, finishes.failed, List.countP_congr fun file mem => by rw [counted file mem]]
    rfl
  refine ⟨finishes.enriched, ?_, again.same finishes.final⟩
  rw [written, failed]

end Batch

end Hyperlisting
