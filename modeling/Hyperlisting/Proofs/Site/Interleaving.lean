import Mathlib.Logic.Hydra
import Hyperlisting.Proofs.Site.Independence
import Hyperlisting.Proofs.Site.Rendering

/-! Batches whose files are published side by side. Each file has a worker, and the workers take
their steps in any order, in one tree and with one count of pages and failures. Where the pages keep
clear of each other, every order ends, with the tree and the counts of the batch that takes one file
after the other. -/

namespace Hyperlisting

open FileTree Footprint

/-- A file that is being published. -/
structure Task where
  file : Path
  worker : Worker (Except Failure Page)

/-- A tree that workers share, what was counted so far, and the tasks that are not counted yet. -/
structure Site where
  tree : FileTree
  written : Nat
  failed : Nat
  tasks : List Task

namespace Site

/-- Any of the tasks takes a step, or is counted after its last one. No step counts a failure that
is not recoverable: such a failure stops the batch. -/
inductive Step : Site → Site → Prop where
  | work {tree written failed before file change rest after} :
    Step ⟨tree, written, failed, before ++ ⟨file, .step change rest⟩ :: after⟩
      ⟨change tree, written, failed, before ++ ⟨file, rest tree⟩ :: after⟩
  | wrote {tree written failed before file page after} :
    Step ⟨tree, written, failed, before ++ ⟨file, .done (.ok page)⟩ :: after⟩
      ⟨tree, written + 1, failed, before ++ after⟩
  | passedOver {tree written failed before file failure after} :
    failure.isRecoverable = true →
    Step ⟨tree, written, failed, before ++ ⟨file, .done (.error failure)⟩ :: after⟩
      ⟨tree, written, failed + 1, before ++ after⟩

/-- Where a batch starts, with a name for each file's unfinished page. -/
def starting (batch : Batch) (files : List Path) (name : Path → OsText) (origin : FileTree) :
    Site where
  tree := origin
  written := 0
  failed := 0
  tasks := (batch.inside files).map fun file => ⟨file, .publish batch (name file) file⟩

/-- A task can be taken to its end before any other one takes a step. -/
theorem reaches_alone {written failed : Nat} {before after : List Task} {file : Path}
    (worker : Worker (Except Failure Page)) (tree : FileTree) :
    Relation.ReflTransGen Step ⟨tree, written, failed, before ++ ⟨file, worker⟩ :: after⟩
      ⟨(worker.alone tree).2, written, failed,
        before ++ ⟨file, .done (worker.alone tree).1⟩ :: after⟩ := by
  induction worker generalizing tree with
  | done result => exact .refl
  | step change rest ih =>
    exact (Relation.ReflTransGen.single .work).trans (ih tree (change tree))

end Site

/-- One worker is what another one has left to do after a step. -/
def Worker.Follows {α : Type} (later earlier : Worker α) : Prop :=
  ∃ change rest tree, earlier = .step change rest ∧ later = rest tree

theorem Worker.wellFounded_follows {α : Type} : WellFounded (Worker.Follows (α := α)) := by
  refine ⟨fun worker => ?_⟩
  induction worker with
  | done result => exact ⟨_, by rintro _ ⟨_, _, _, ends, _⟩; cases ends⟩
  | step change rest ih =>
    refine ⟨_, ?_⟩
    rintro _ ⟨_, _, tree, same, rfl⟩
    obtain ⟨-, rfl⟩ := Worker.step.inj same
    exact ih tree

/-- No order of steps goes on forever: a step takes a task away or puts what is left of it in its
place. -/
theorem Site.wellFounded_step : WellFounded fun after before : Site => Step before after := by
  let order := Relation.CutExpand fun later earlier : Task => later.worker.Follows earlier.worker
  have wellFounded : WellFounded order :=
    (InvImage.wf Task.worker Worker.wellFounded_follows).cutExpand
  have cut (before : List Task) (task : Task) (after : List Task) :
      ((before ++ task :: after : List Task) : Multiset Task) = {task} + ↑(before ++ after) :=
    Multiset.coe_eq_coe.mpr List.perm_middle
  refine Subrelation.wf (r := InvImage order fun site => (site.tasks : Multiset Task)) ?_
    (InvImage.wf _ wellFounded)
  intro next site step
  cases step with
  | @work tree _ _ before file change rest after =>
    refine ⟨{⟨file, rest tree⟩}, ⟨file, .step change rest⟩, ?_, ?_⟩
    · intro task mem
      rw [Multiset.mem_singleton.mp mem]
      exact ⟨change, rest, tree, rfl, rfl⟩
    · dsimp only
      rw [cut, cut, add_right_comm, add_comm {_} {_}, add_right_comm]
  | @wrote _ _ _ before file page after =>
    refine ⟨0, ⟨file, .done (.ok page)⟩, by simp, ?_⟩
    dsimp only
    rw [cut, add_zero, add_comm]
  | @passedOver _ _ _ before file failure after =>
    refine ⟨0, ⟨file, .done (.error failure)⟩, by simp, ?_⟩
    dsimp only
    rw [cut, add_zero, add_comm]

namespace Batch

variable {batch : Batch} {files counted : List Path} {origin : FileTree} {name : Path → OsText}
  {file other : Path} {place : Location} {page : Page} {site next : Site}

/-- The unfinished pages have names that are new: neither another one has the name, nor anything
that is looked for. -/
structure Drawn (batch : Batch) (files : List Path) (origin : FileTree) (name : Path → OsText) :
    Prop where
  new : ∀ file ∈ batch.inside files, ∀ page, (batch.renderFile origin file).page = .ok page →
    origin.get? (unfinished origin page.output (name file)) = none
  distinct : ∀ file ∈ batch.inside files, ∀ other ∈ batch.inside files, file ≠ other →
    ∀ page otherPage, (batch.renderFile origin file).page = .ok page →
      (batch.renderFile origin other).page = .ok otherPage →
      unfinished origin page.output (name file) ≠ unfinished origin otherPage.output (name other)
  offSources : ∀ file ∈ batch.inside files, ∀ other ∈ batch.inside files, ∀ page,
    (batch.renderFile origin file).page = .ok page →
      unfinished origin page.output (name file) ∉ origin.route other
  offPages : ∀ file ∈ batch.inside files, ∀ other ∈ batch.inside files, ∀ page otherPage,
    (batch.renderFile origin file).page = .ok page →
      (batch.renderFile origin other).page = .ok otherPage →
      unfinished origin page.output (name file) ∉ origin.route otherPage.output

section Drawn

variable (independent : batch.Independent files origin) (drawn : batch.Drawn files origin name)

include independent drawn

theorem Drawn.not_mem_area (mem : file ∈ batch.inside files) (otherMem : other ∈ batch.inside files)
    (different : file ≠ other) (own : place ∈ (batch.footprint origin (name file) file).own) :
    place ∉ (batch.footprint origin (name other) other).area := by
  obtain ⟨page, rendered, rfl | rfl⟩ := mem_own own
  · exact independent.not_mem_area (mem_of_mem_inside mem) (mem_of_mem_inside otherMem) different
      rendered
  · intro within
    rcases mem_area within with reads | ⟨otherPage, otherRendered, writes⟩
    · exact drawn.offSources file mem other otherMem page rendered reads
    · exact drawn.offPages file mem other otherMem page otherPage rendered otherRendered
        (passed_dropLast_subset _ _ writes)

theorem Drawn.spares (mem : file ∈ batch.inside files) (otherMem : other ∈ batch.inside files)
    (different : file ≠ other) :
    (batch.footprint origin (name file) file).Spares
      (batch.footprint origin (name other) other) where
  area _ own := drawn.not_mem_area independent mem otherMem different own
  own place own otherOwn := by
    obtain ⟨page, rendered, lands⟩ := mem_own own
    obtain ⟨otherPage, otherRendered, otherLands⟩ := mem_own otherOwn
    have atEnd := destination_mem_route_page rendered
    have atOtherEnd := destination_mem_route_page otherRendered
    rcases lands with rfl | rfl <;> rcases otherLands with same | same
    · exact independent.pages file (mem_of_mem_inside mem) other (mem_of_mem_inside otherMem)
        different _ _ (pagePath_of_renderFile rendered) (pagePath_of_renderFile otherRendered)
        (same ▸ atOtherEnd)
    · exact drawn.offPages other otherMem file mem otherPage page otherRendered rendered
        (same ▸ atEnd)
    · exact drawn.offPages file mem other otherMem page otherPage rendered otherRendered
        (same ▸ atOtherEnd)
    · exact drawn.distinct file mem other otherMem different page otherPage rendered
        otherRendered same
  wanted _ wanted own := drawn.not_mem_area independent otherMem mem different.symm own
    (wanted_subset_area wanted)

end Drawn

/-- What a worker still ensures that set out from the first tree. -/
def Pledges (batch : Batch) (origin : FileTree) (name : Path → OsText) (file : Path)
    (worker : Worker (Except Failure Page)) (tree : FileTree) : Prop :=
  (batch.footprint origin (name file) file).Ensures origin
    (batch.Published origin origin (name file) file) worker tree

/-- Some files are counted and the others have a task, and whatever was done keeps to the places of
the files. -/
structure Running (batch : Batch) (files : List Path) (origin : FileTree) (name : Path → OsText)
    (counted : List Path) (site : Site) : Prop where
  perm : (counted ++ site.tasks.map Task.file).Perm (batch.inside files)
  sound : site.tree.Sound
  current : site.tree.current = origin.current
  room : site.tree.room = origin.room
  elsewhere : ∀ place,
    (∀ file ∈ batch.inside files, place ∉ (batch.footprint origin (name file) file).own) →
      (∀ file ∈ batch.inside files, place ∉ (batch.footprint origin (name file) file).wanted) →
        site.tree.get? place = origin.get? place
  ended : ∀ file ∈ counted, ∃ result, batch.Pledges origin name file (.done result) site.tree
  tasks : ∀ task ∈ site.tasks, batch.Pledges origin name task.file task.worker site.tree
  written : site.written = counted.countP (batch.succeeds origin)
  failed : site.failed = counted.countP (!batch.succeeds origin ·)

section Running

variable (independent : batch.Independent files origin) (drawn : batch.Drawn files origin name)

theorem Running.perm_cons {tree : FileTree} {written failed : Nat} {before after : List Task}
    {task : Task}
    (running : batch.Running files origin name counted
      ⟨tree, written, failed, before ++ task :: after⟩) :
    (task.file :: (counted ++ (before ++ after).map Task.file)).Perm (batch.inside files) := by
  refine List.Perm.trans ?_ running.perm
  simp only [List.map_append, List.map_cons, ← List.append_assoc]
  exact List.perm_middle.symm

include independent drawn

theorem Running.starting :
    batch.Running files origin name [] (Site.starting batch files name origin) where
  perm := by simp [Site.starting, Function.comp_def]
  sound := independent.sound
  current := rfl
  room := rfl
  elsewhere _ _ _ := rfl
  ended _ mem := absurd mem List.not_mem_nil
  tasks task taskMem := by
    obtain ⟨file, mem, rfl⟩ := List.mem_map.mp taskMem
    have fileMem := mem_of_mem_inside mem
    refine ensures_publish (independent.canonical file fileMem) independent.sound
      (independent.recoverable file mem) (fun page rendered => ⟨?_, ?_, rfl, ?_⟩)
      ⟨independent.outgrown fileMem (Settled.none independent.sound) List.not_mem_nil
        (List.nil_subset _), rfl, fun _ _ => .inl rfl⟩
    · intro same
      exact drawn.offPages file mem file mem page page rendered rendered
        (same ▸ destination_mem_route_page rendered)
    · intro wanted
      exact drawn.offPages file mem file mem page page rendered rendered
        (passed_dropLast_subset _ _ (missing_subset_passed _ _ _ (wantedAbove_subset wanted)))
    · exact drawn.new file mem page rendered
  written := rfl
  failed := rfl

theorem Running.work {tree : FileTree} {written failed : Nat} {before after : List Task}
    {change : FileTree → FileTree} {rest : FileTree → Worker (Except Failure Page)}
    (running : batch.Running files origin name counted
      ⟨tree, written, failed, before ++ ⟨file, .step change rest⟩ :: after⟩) :
    batch.Running files origin name counted
      ⟨change tree, written, failed, before ++ ⟨file, rest tree⟩ :: after⟩ := by
  have perm := running.perm_cons
  have distinct := perm.nodup_iff.mpr (independent.distinct.filter _)
  have mem : file ∈ batch.inside files := perm.subset List.mem_cons_self
  obtain ⟨keeps, pledges⟩ := running.tasks ⟨file, .step change rest⟩ (by simp) tree (.refl ..)
  have others {other : Path} {worker : Worker (Except Failure Page)}
      (otherMem : other ∈ counted ++ (before ++ after).map Task.file)
      (pledges : batch.Pledges origin name other worker tree) :
      batch.Pledges origin name other worker (change tree) := by
    have different : file ≠ other := by
      rintro rfl
      exact (List.nodup_cons.mp distinct).1 otherMem
    have spares := drawn.spares independent mem (perm.subset (List.mem_cons_of_mem _ otherMem))
      different
    exact Ensures.rely pledges (keeps.rely spares fun place wanted =>
      get?_of_mem_wanted wanted)
  refine ⟨by simpa using running.perm, keeps.sound running.sound,
    keeps.current.trans running.current, keeps.room.trans running.room,
    fun place notOwn notWanted => ?_, fun other otherMem => ?_, fun task taskMem => ?_, running.written, running.failed⟩
  · rcases keeps.elsewhere place (notOwn file mem) with same | ⟨wanted, -⟩
    · exact same.trans (running.elsewhere place notOwn notWanted)
    · exact absurd wanted (notWanted file mem)
  · obtain ⟨result, pledges⟩ := running.ended other otherMem
    exact ⟨result, others (List.mem_append_left _ otherMem) pledges⟩
  · rcases List.mem_append.mp taskMem with earlier | later
    · exact others (List.mem_append_right _ (List.mem_map_of_mem (by simp [earlier])))
        (running.tasks task (by simp [earlier]))
    · rcases List.mem_cons.mp later with rfl | later
      · exact pledges
      · exact others (List.mem_append_right _ (List.mem_map_of_mem (by simp [later])))
          (running.tasks task (by simp [later]))

omit drawn in
/-- What a worker comes to tells whether its file succeeds. -/
theorem Running.verdict {result : Except Failure Page}
    (running : batch.Running files origin name counted site)
    (mem : ⟨file, .done result⟩ ∈ site.tasks) :
    Verdict (batch.succeeds origin file = true) result := by
  have isInside : file ∈ batch.inside files :=
    running.perm.subset (List.mem_append_right _ (List.mem_map_of_mem mem))
  have published := running.tasks _ mem site.tree (.refl ..)
  rw [independent.succeeds_iff isInside]
  exact published.verdict

omit independent drawn in
theorem Running.count {tree : FileTree} {written failed : Nat} {before after : List Task}
    {result : Except Failure Page}
    (running : batch.Running files origin name counted
      ⟨tree, written, failed, before ++ ⟨file, .done result⟩ :: after⟩) :
    batch.Running files origin name (file :: counted)
      ⟨tree, written + [file].countP (batch.succeeds origin),
        failed + [file].countP (!batch.succeeds origin ·), before ++ after⟩ where
  perm := running.perm_cons
  sound := running.sound
  current := running.current
  room := running.room
  elsewhere := running.elsewhere
  ended := List.forall_mem_cons.mpr
    ⟨⟨result, running.tasks ⟨file, .done result⟩ (by simp)⟩, running.ended⟩
  tasks task mem := running.tasks task (by simp at mem ⊢; tauto)
  written := by
    have so : written = counted.countP (batch.succeeds origin) := running.written
    dsimp only
    rw [so, List.countP_singleton, List.countP_cons]
  failed := by
    have so : failed = counted.countP (!batch.succeeds origin ·) := running.failed
    dsimp only
    rw [so, List.countP_singleton, List.countP_cons]

theorem Running.step (running : batch.Running files origin name counted site)
    (step : Site.Step site next) : ∃ counted, batch.Running files origin name counted next := by
  cases step with
  | work => exact ⟨counted, running.work independent drawn⟩
  | @wrote _ _ _ before file page after =>
    have mem : ⟨file, .done (.ok page)⟩ ∈ before ++ ⟨file, .done (.ok page)⟩ :: after := by simp
    refine ⟨file :: counted, ?_⟩
    have written : batch.succeeds origin file = true := running.verdict independent mem
    simpa [written] using running.count
  | @passedOver _ _ _ before file failure after =>
    have mem : ⟨file, .done (.error failure)⟩ ∈
        before ++ ⟨file, .done (.error failure)⟩ :: after := by simp
    refine ⟨file :: counted, ?_⟩
    have failed : ¬ batch.succeeds origin file = true := (running.verdict independent mem).2
    simpa [failed] using running.count

theorem Running.reached
    (reached : Relation.ReflTransGen Site.Step (Site.starting batch files name origin) site) :
    ∃ counted, batch.Running files origin name counted site := by
  induction reached with
  | refl => exact ⟨[], .starting independent drawn⟩
  | tail _ step ih =>
    obtain ⟨counted, running⟩ := ih
    exact running.step independent drawn step

omit drawn in
/-- While a task is left, there is a step to take. -/
theorem Running.exists_step (running : batch.Running files origin name counted site)
    (left : site.tasks ≠ []) : ∃ next, Site.Step site next := by
  obtain ⟨tree, written, failed, tasks⟩ := site
  obtain ⟨⟨file, worker⟩, after, rfl⟩ := List.exists_cons_of_ne_nil left
  cases worker with
  | step change rest => exact ⟨_, @Site.Step.work _ _ _ [] ..⟩
  | done result =>
    cases result with
    | ok page => exact ⟨_, @Site.Step.wrote _ _ _ [] ..⟩
    | error failure =>
      have verdict : Verdict _ (.error failure) := running.verdict independent List.mem_cons_self
      exact ⟨_, @Site.Step.passedOver _ _ _ [] _ _ _ verdict.1⟩

omit independent in
/-- Once no task is left, all files are settled. -/
theorem Running.settled (running : batch.Running files origin name counted site)
    (ended : site.tasks = []) : batch.Settled origin (batch.inside files) site.tree := by
  have all : counted.Perm (batch.inside files) := by
    simpa [ended] using running.perm
  have published {file : Path} (mem : file ∈ batch.inside files) :
      ∃ result, batch.Published origin origin (name file) file result site.tree := by
    obtain ⟨result, pledges⟩ := running.ended file (all.symm.subset mem)
    exact ⟨result, pledges site.tree (.refl ..)⟩
  refine ⟨running.current, running.room, running.sound, fun file mem page rendered admits => ?_,
    fun file mem page rendered => ?_, fun place untouched => ?_⟩
  · obtain ⟨result, published⟩ := published mem
    exact published.written rendered admits
  · obtain ⟨result, published⟩ := published mem
    exact published.made rendered
  · by_cases own : ∃ file ∈ batch.inside files,
      place ∈ (batch.footprint origin (name file) file).own
    · obtain ⟨file, mem, own⟩ := own
      obtain ⟨result, published⟩ := published mem
      exact published.own (drawn.new file mem) own (untouched file mem)
    · exact running.elsewhere place (fun file mem within => own ⟨file, mem, within⟩)
        fun file mem wanted => untouched file mem (touches_of_mem_wanted wanted)

end Running

/-- An end of a batch is what the batch comes to that takes one file after the other. -/
structure Agrees (batch : Batch) (files : List Path) (origin : FileTree) (site : Site) :
    Prop where
  result : (batch.run files origin).result =
    .ok ⟨site.written, site.failed, (files.filter (!·.startsWith batch.layout.root)).length⟩
  current : site.tree.current = (batch.run files origin).tree.current
  room : site.tree.room = (batch.run files origin).tree.room
  tree : ∀ place, site.tree.get? place = (batch.run files origin).tree.get? place
  /-- Every file below the root is counted once. -/
  all : site.written + site.failed = (batch.inside files).length
  /-- A file is counted as written if its page is written whichever way. -/
  written : site.written = (batch.inside files).countP (batch.succeeds origin)
  pages : ∀ file ∈ batch.inside files, batch.succeeds origin file = true →
    ∃ page, (batch.renderFile origin file).page = .ok page ∧
      site.tree.get? (origin.destination page.output) =
        some (.file (String.ofList page.html).toUTF8)
  /-- What was there and is not the place of a written page is as it was. -/
  kept : ∀ place entry, origin.get? place = some entry →
    (∀ file ∈ batch.inside files, batch.succeeds origin file = true →
      ∀ page, (batch.renderFile origin file).page = .ok page →
        place ≠ origin.destination page.output) →
      site.tree.get? place = some entry

section Agrees

variable (independent : batch.Independent files origin) (drawn : batch.Drawn files origin name)

include independent in
/-- What was there and is touched is the place of a page that is written. -/
theorem Independent.eq_destination_of_touches {entry : Entry} (mem : file ∈ batch.inside files)
    (stood : origin.get? place = some entry) (touches : batch.Touches origin file place) :
    batch.succeeds origin file = true ∧ ∃ page, (batch.renderFile origin file).page = .ok page ∧
      place = origin.destination page.output := by
  obtain ⟨page, rendered, ⟨admits, lands⟩ | wanted⟩ := touches
  · exact ⟨(independent.succeeds_iff mem).mpr ⟨page, rendered, admits⟩, page, rendered, lands⟩
  · rw [get?_of_mem_missing (wantedAbove_subset wanted)] at stood
    cases stood

include independent drawn in
theorem Running.agrees (running : batch.Running files origin name counted site)
    (ended : site.tasks = []) : batch.Agrees files origin site := by
  have settled := running.settled drawn ended
  obtain ⟨settledRun, result⟩ := independent.settled_run
  have all : counted.Perm (batch.inside files) := by
    simpa [ended] using running.perm
  have written := running.written.trans (all.countP_eq _)
  have failed := running.failed.trans (all.countP_eq _)
  refine ⟨?_, settled.current.trans settledRun.current.symm,
    settled.room.trans settledRun.room.symm, settled.get?_eq settledRun, ?_, written,
    fun file mem succeeds => ?_, fun place entry stood elsewhere => ?_⟩
  · rw [result, written, failed]
  · rw [written, failed, List.length_eq_countP_add_countP (batch.succeeds origin)]
    simp
  · obtain ⟨page, rendered, admits⟩ := (independent.succeeds_iff mem).mp succeeds
    exact ⟨page, rendered, settled.written file mem page rendered admits⟩
  · rw [settled.elsewhere place fun file mem touches => ?_, stood]
    obtain ⟨succeeds, page, rendered, lands⟩ :=
      independent.eq_destination_of_touches mem stood touches
    exact elsewhere file mem succeeds page rendered lands

end Agrees

/-- In whichever order the workers of a batch take their steps, they end, and they end with the tree
and the counts of the batch that takes one file after the other. -/
theorem agrees_of_interleaving (independent : batch.Independent files origin)
    (drawn : batch.Drawn files origin name) :
    (WellFounded fun after before : Site => Site.Step before after) ∧
      ∀ site, Relation.ReflTransGen Site.Step (Site.starting batch files name origin) site →
        (site.tasks ≠ [] → ∃ next, Site.Step site next) ∧
          (site.tasks = [] → batch.Agrees files origin site) := by
  refine ⟨Site.wellFounded_step, fun site reached => ?_⟩
  obtain ⟨counted, running⟩ := Running.reached independent drawn reached
  exact ⟨running.exists_step independent, running.agrees independent drawn⟩

/-- Two modules at different depths, one that is no text, and one that is not below the root. The
directories of the pages are missing. -/
def sharedTree : FileTree :=
  .ofEntries [] [(["R".toList], Entry.directory),
    (["R".toList, "a.py".toList], Entry.file ByteArray.empty),
    (["R".toList, "p".toList], Entry.directory),
    (["R".toList, "p".toList, "b.py".toList], Entry.file ByteArray.empty),
    (["R".toList, "p".toList, "c.py".toList], Entry.file ⟨#[0xff]⟩),
    (["d.py".toList], Entry.file ByteArray.empty)]

def sharedLayout : Layout where
  root := ⟨"/R".toList⟩
  output := ⟨"/R/out/html".toList⟩

def sharedBatch : Batch := .listing {} sharedLayout .linksInnermost

def sharedFiles : List Path :=
  [⟨"/R/a.py".toList⟩, ⟨"/R/p/b.py".toList⟩, ⟨"/R/p/c.py".toList⟩, ⟨"/d.py".toList⟩]

def sharedName (file : Path) : OsText :=
  if file = ⟨"/R/a.py".toList⟩ then ".tmpQ3xkLm".toList
  else if file = ⟨"/R/p/b.py".toList⟩ then ".tmp0aZ9tY".toList
  else ".tmpwB7e2c".toList

/-- The files that have a path for their page, with that path. -/
def sharedPages : List (Path × Path) :=
  [(⟨"/R/a.py".toList⟩, ⟨"/R/out/html/a.py.html".toList⟩),
    (⟨"/R/p/b.py".toList⟩, ⟨"/R/out/html/p/b.py.html".toList⟩),
    (⟨"/R/p/c.py".toList⟩, ⟨"/R/out/html/p/c.py.html".toList⟩)]

def sharedLocations : List Location :=
  [["R".toList, "a.py".toList], ["R".toList, "p".toList, "b.py".toList],
    ["R".toList, "p".toList, "c.py".toList], ["d.py".toList]]

/-- What the tree and the list of files are like. -/
theorem files_shared : sharedTree.Sound ∧ sharedTree.links = [] ∧ sharedFiles.Nodup ∧
    (sharedFiles = sharedLocations.map pathOf ∧ ∀ location ∈ sharedLocations, ∀ name ∈ location,
      Path.Component.ofPiece? name = some (.name name) ∧ Path.separator ∉ name) ∧
    (∀ file ∈ sharedFiles, file = ⟨"/d.py".toList⟩ ∨ ∃ page ∈ sharedPages, page.1 = file) ∧
    sharedFiles.filter (·.startsWith sharedLayout.root) = sharedPages.map Prod.fst ∧
    sharedFiles.filter (!·.startsWith sharedLayout.root) = [⟨"/d.py".toList⟩] := by
  decide +kernel

/-- No page, finished or not, comes in the way of another one or of a file. -/
theorem apart_shared :
    (∀ page ∈ sharedPages,
      (sharedTree.get? (unfinished sharedTree page.2 (sharedName page.1))).isNone = true ∧
      (∀ other ∈ sharedFiles, sharedTree.destination page.2 ∉ sharedTree.route other ∧
        unfinished sharedTree page.2 (sharedName page.1) ∉ sharedTree.route other) ∧
      ∀ other ∈ sharedPages,
        unfinished sharedTree page.2 (sharedName page.1) ∉ sharedTree.route other.2 ∧
        (page.1 ≠ other.1 → sharedTree.destination page.2 ∉ sharedTree.route other.2 ∧
          unfinished sharedTree page.2 (sharedName page.1) ≠
            unfinished sharedTree other.2 (sharedName other.1))) := by
  decide +kernel

theorem pagePath_shared : ∀ page ∈ sharedPages,
    sharedBatch.layout.pagePath page.1 = .ok page.2 := by
  have first : sharedLayout.pagePath ⟨"/R/a.py".toList⟩ =
      .ok ⟨"/R/out/html/a.py.html".toList⟩ := by
    cbv
  have second : sharedLayout.pagePath ⟨"/R/p/b.py".toList⟩ =
      .ok ⟨"/R/out/html/p/b.py.html".toList⟩ := by
    cbv
  have third : sharedLayout.pagePath ⟨"/R/p/c.py".toList⟩ =
      .ok ⟨"/R/out/html/p/c.py.html".toList⟩ := by
    cbv
  simp only [sharedPages, List.forall_mem_cons]
  exact ⟨first, second, third, fun _ none => absurd none List.not_mem_nil⟩

theorem mem_sharedPages {output : Path} (mem : file ∈ sharedFiles)
    (paged : sharedBatch.layout.pagePath file = .ok output) : (file, output) ∈ sharedPages := by
  have outside : sharedLayout.pagePath ⟨"/d.py".toList⟩ =
      .error (.outsideRoot ⟨"/d.py".toList⟩ ⟨"/R".toList⟩) := by
    cbv
  obtain ⟨-, -, -, -, listed, -⟩ := files_shared
  rcases listed file mem with rfl | ⟨page, known, rfl⟩
  · cases outside.symm.trans paged
  · rw [← Except.ok.inj ((pagePath_shared page known).symm.trans paged)]
    exact known

theorem independent_shared : sharedBatch.Independent sharedFiles sharedTree := by
  obtain ⟨sound, noLinks, distinct, ⟨located, names⟩, -, below, -⟩ := files_shared
  have unlinked (places : List Location) : Unlinked sharedTree places :=
    fun place _ => ne_link_of_links noLinks place
  refine ⟨sound, distinct, fun file mem => ?_, fun file mem other otherMem different output
    otherOutput paged otherPaged => ?_, fun file mem other otherMem output paged => ?_,
    unlinked _, fun place _ => ne_link_of_links noLinks place, fun file mem failure fails => ?_⟩
  · rw [located] at mem
    obtain ⟨location, known, rfl⟩ := List.mem_map.mp mem
    exact ⟨location, rfl, fun name within =>
      ⟨(names location known name within).1, (names location known name within).2⟩, unlinked _⟩
  · have page := apart_shared _ (mem_sharedPages mem paged)
    exact ((page.2.2 _ (mem_sharedPages otherMem otherPaged)).2 different).1
  · exact ((apart_shared _ (mem_sharedPages mem paged)).2.1 other otherMem).1
  · have below : sharedBatch.inside sharedFiles = sharedPages.map Prod.fst := below
    rw [below] at mem
    obtain ⟨page, paged, rfl⟩ := List.mem_map.mp mem
    exact isRecoverable_of_renderFile (pagePath_shared page paged) fails

theorem drawn_shared : sharedBatch.Drawn sharedFiles sharedTree sharedName := by
  have known {file : Path} {page : Page} (mem : file ∈ sharedBatch.inside sharedFiles)
      (rendered : (sharedBatch.renderFile sharedTree file).page = .ok page) :
      (file, page.output) ∈ sharedPages :=
    mem_sharedPages (mem_of_mem_inside mem) (pagePath_of_renderFile rendered)
  constructor
  · intro file mem page rendered
    exact Option.isNone_iff_eq_none.mp (apart_shared _ (known mem rendered)).1
  · intro file mem other otherMem different page otherPage rendered otherRendered
    have apart := (apart_shared _ (known mem rendered)).2.2 _ (known otherMem otherRendered)
    exact (apart.2 different).2
  · intro file mem other otherMem page rendered
    exact ((apart_shared _ (known mem rendered)).2.1 other (mem_of_mem_inside otherMem)).2
  · intro file mem other otherMem page otherPage rendered otherRendered
    exact ((apart_shared _ (known mem rendered)).2.2 _ (known otherMem otherRendered)).1

theorem countP_shared :
    (sharedBatch.inside sharedFiles).countP (sharedBatch.succeeds sharedTree) = 2 := by
  have succeeds {file output : Path} (mem : (file, output) ∈ sharedPages)
      (read : sharedTree.readText file = .ok [])
      (writes : ∀ html, ∃ after, (Page.mk file output html).write sharedTree = .ok () after) :
      sharedBatch.succeeds sharedTree file = true := by
    obtain ⟨html, rendered⟩ := exists_renderFile {} .linksInnermost read (pagePath_shared _ mem)
    obtain ⟨after, written⟩ := writes html
    have made : (sharedBatch.publish file sharedTree).1.page = .ok ⟨file, output, html⟩ :=
      (publish_of_write rendered written).1
    rw [Batch.succeeds, Rendering.output?, made]
    rfl
  have first : sharedBatch.succeeds sharedTree ⟨"/R/a.py".toList⟩ = true :=
    succeeds List.mem_cons_self (by cbv) fun html => ⟨_, by cbv⟩
  have second : sharedBatch.succeeds sharedTree ⟨"/R/p/b.py".toList⟩ = true :=
    succeeds (List.mem_cons_of_mem _ List.mem_cons_self) (by cbv) fun html => ⟨_, by cbv⟩
  have unread : sharedTree.readText ⟨"/R/p/c.py".toList⟩ = .error .notText := by cbv
  have third : sharedBatch.succeeds sharedTree ⟨"/R/p/c.py".toList⟩ = false := by
    rw [Batch.succeeds, Rendering.output?, publish, renderFile, unread]
    rfl
  obtain ⟨-, -, -, -, -, below, -⟩ := files_shared
  have below : sharedBatch.inside sharedFiles =
      [⟨"/R/a.py".toList⟩, ⟨"/R/p/b.py".toList⟩, ⟨"/R/p/c.py".toList⟩] := below
  rw [below]
  simp only [List.countP_cons, List.countP_nil, first, second, third]
  rfl

/-- Whichever of the two modules makes the directories, both pages are written. -/
theorem agrees_of_interleaving_shared :
    sharedBatch.Independent sharedFiles sharedTree ∧
      sharedBatch.Drawn sharedFiles sharedTree sharedName ∧
      ∀ site, Relation.ReflTransGen Site.Step
          (Site.starting sharedBatch sharedFiles sharedName sharedTree) site →
        site.tasks = [] → site.written = 2 ∧ site.failed = 1 ∧
          (sharedBatch.run sharedFiles sharedTree).result = .ok ⟨2, 1, 1⟩ := by
  refine ⟨independent_shared, drawn_shared, fun site reached ended => ?_⟩
  have agrees :=
    ((agrees_of_interleaving independent_shared drawn_shared).2 site reached).2 ended
  have written := agrees.written.trans countP_shared
  obtain ⟨-, -, -, -, -, below, outside⟩ := files_shared
  have all : site.written + site.failed = 3 := agrees.all.trans (congrArg List.length below)
  have failed : site.failed = 1 := by omega
  refine ⟨written, failed, ?_⟩
  have result := agrees.result
  rw [written, failed] at result
  rw [result]
  exact congrArg (fun outside : List Path => Except.ok (Report.mk 2 1 outside.length)) outside

/-- A module beside a file that is no text, where the page of the module goes if the output
directory is where the module is. -/
def aliasedTree : FileTree :=
  .ofEntries [] [(["R".toList], Entry.directory),
    (["R".toList, "x".toList], Entry.directory),
    (["R".toList, "a.py".toList], Entry.file ByteArray.empty),
    (["R".toList, "a.py.html".toList], Entry.file ⟨#[0xff]⟩)]

/-- The output directory is the root, spelled another way. -/
def aliasedLayout : Layout where
  root := ⟨"/R".toList⟩
  output := ⟨"/R/x/..".toList⟩

def aliasedBatch : Batch := .listing {} aliasedLayout .linksInnermost

def aliasedFiles : List Path := [⟨"/R/a.py".toList⟩, ⟨"/R/a.py.html".toList⟩]

/-- The files with the paths of their pages. -/
def aliasedPages : List (Path × Path) :=
  [(⟨"/R/a.py".toList⟩, ⟨"/R/x/../a.py.html".toList⟩),
    (⟨"/R/a.py.html".toList⟩, ⟨"/R/x/../a.py.html.html".toList⟩)]

/-- By their text, the pages keep clear of each other and of the files. -/
theorem files_aliased : aliasedTree.Sound ∧ aliasedTree.links = [] ∧ aliasedFiles.Nodup ∧
    aliasedFiles.filter (·.startsWith aliasedLayout.root) = aliasedPages.map Prod.fst ∧
    aliasedFiles.filter (!·.startsWith aliasedLayout.root) = [] ∧
    ∀ page ∈ aliasedPages, (∀ other ∈ aliasedFiles, other.startsWith page.2 = false) ∧
      ∀ other ∈ aliasedPages, page.1 ≠ other.1 → other.2.startsWith page.2 = false := by
  decide +kernel

theorem pagePath_aliased : ∀ page ∈ aliasedPages,
    aliasedLayout.pagePath page.1 = .ok page.2 := by
  have module : aliasedLayout.pagePath ⟨"/R/a.py".toList⟩ = .ok ⟨"/R/x/../a.py.html".toList⟩ := by
    cbv
  have other : aliasedLayout.pagePath ⟨"/R/a.py.html".toList⟩ =
      .ok ⟨"/R/x/../a.py.html.html".toList⟩ := by
    cbv
  simp only [aliasedPages, List.forall_mem_cons]
  exact ⟨module, other, fun _ none => absurd none List.not_mem_nil⟩

theorem mem_aliasedPages {output : Path} (mem : file ∈ aliasedFiles)
    (paged : aliasedLayout.pagePath file = .ok output) : (file, output) ∈ aliasedPages := by
  have known : ∃ page ∈ aliasedPages, page.1 = file := List.mem_map.mp mem
  obtain ⟨page, known, rfl⟩ := known
  rw [← Except.ok.inj ((pagePath_aliased page known).symm.trans paged)]
  exact known

theorem renderFile_aliased :
    (∃ html, (aliasedBatch.renderFile aliasedTree ⟨"/R/a.py".toList⟩).page =
        .ok ⟨⟨"/R/a.py".toList⟩, ⟨"/R/x/../a.py.html".toList⟩, html⟩) ∧
      (aliasedBatch.renderFile aliasedTree ⟨"/R/a.py.html".toList⟩).page =
        .error (.read ⟨"/R/a.py.html".toList⟩ .notText) := by
  have read : aliasedTree.readText ⟨"/R/a.py".toList⟩ = .ok [] := by cbv
  have unread : aliasedTree.readText ⟨"/R/a.py.html".toList⟩ = .error .notText := by cbv
  refine ⟨exists_renderFile {} .linksInnermost read
    (pagePath_aliased _ List.mem_cons_self), ?_⟩
  rw [renderFile, unread]

/-- The page of the module replaces the other file. -/
theorem write_aliased (html : Text) :
    ∃ after, (Page.mk ⟨"/R/a.py".toList⟩ ⟨"/R/x/../a.py.html".toList⟩ html).write aliasedTree =
        .ok () after ∧
      after.resolve ⟨"/R/a.py.html".toList⟩ = .ok ["R".toList, "a.py.html".toList] ∧
      after.get? ["R".toList, "a.py.html".toList] = some (.file (String.ofList html).toUTF8) ∧
      ∀ other, ∃ last,
        (Page.mk ⟨"/R/a.py.html".toList⟩ ⟨"/R/x/../a.py.html.html".toList⟩ other).write after =
          .ok () last :=
  ⟨_, by cbv, by cbv, by cbv, fun other => ⟨_, by cbv⟩⟩

theorem result_aliased : (aliasedBatch.run aliasedFiles aliasedTree).result = .ok ⟨2, 0, 0⟩ := by
  obtain ⟨⟨html, rendered⟩, -⟩ := renderFile_aliased
  obtain ⟨after, writes, resolved, stands, writesOther⟩ := write_aliased html
  obtain ⟨other, otherRendered⟩ :=
    exists_renderFile {} .linksInnermost (readText_of_get? resolved stands)
      (pagePath_aliased _ (List.mem_cons_of_mem _ List.mem_cons_self))
  obtain ⟨last, writesOther⟩ := writesOther other
  have written := (publish_of_write otherRendered writesOther).1
  obtain ⟨-, -, -, below, outside, -⟩ := files_aliased
  have below : aliasedBatch.inside aliasedFiles = aliasedPages.map Prod.fst := below
  have verdict : Verdict (true = true)
      (aliasedBatch.publish ⟨"/R/a.py.html".toList⟩ after).1.page := written.symm ▸ rfl
  rw [result_of_pair below rendered writes verdict]
  exact congrArg (fun outside : List Path => Except.ok (Report.mk 2 0 outside.length)) outside

def aliasedName : OsText := ".tmp0aZ9tY".toList

theorem alone_aliased : ∃ last,
    (∃ page, (Worker.publish aliasedBatch aliasedName ⟨"/R/a.py".toList⟩).alone aliasedTree =
      (.ok page, last)) ∧
    (Worker.publish aliasedBatch aliasedName ⟨"/R/a.py.html".toList⟩).alone aliasedTree =
      (.error (.read ⟨"/R/a.py.html".toList⟩ .notText), aliasedTree) := by
  obtain ⟨⟨html, rendered⟩, fails⟩ := renderFile_aliased
  obtain ⟨last, writes⟩ : ∃ last,
      (Worker.write ⟨⟨"/R/a.py".toList⟩, ⟨"/R/x/../a.py.html".toList⟩, html⟩ aliasedName).alone
        aliasedTree = (.ok (), last) :=
    ⟨_, by cbv⟩
  refine ⟨last, ⟨⟨⟨"/R/a.py".toList⟩, ⟨"/R/x/../a.py.html".toList⟩, html⟩, ?_⟩, ?_⟩
  · rw [Worker.publish, Worker.alone, rendered]
    dsimp only
    rw [Worker.alone_bind, id, writes]
    rfl
  · rw [Worker.publish, Worker.alone, fails]
    rfl

/-- Before the module has its page, the other file fails. -/
theorem reaches_aliased : ∃ site : Site,
    Relation.ReflTransGen Site.Step
        (Site.starting aliasedBatch aliasedFiles (fun _ => aliasedName) aliasedTree) site ∧
      site.tasks = [] ∧ site.written = 1 ∧ site.failed = 1 := by
  obtain ⟨last, ⟨page, module⟩, other⟩ := alone_aliased
  have toOther : Relation.ReflTransGen Site.Step
      ⟨aliasedTree, 0, 0,
        [⟨⟨"/R/a.py".toList⟩, .publish aliasedBatch aliasedName ⟨"/R/a.py".toList⟩⟩] ++
        ⟨⟨"/R/a.py.html".toList⟩,
          .publish aliasedBatch aliasedName ⟨"/R/a.py.html".toList⟩⟩ :: []⟩ _ :=
    Site.reaches_alone _ aliasedTree
  have toModule : Relation.ReflTransGen Site.Step
      ⟨aliasedTree, 0, 1,
        [] ++ ⟨⟨"/R/a.py".toList⟩,
          .publish aliasedBatch aliasedName ⟨"/R/a.py".toList⟩⟩ :: []⟩ _ :=
    Site.reaches_alone _ aliasedTree
  rw [other] at toOther
  rw [module] at toModule
  obtain ⟨-, -, -, below, -⟩ := files_aliased
  have below : aliasedBatch.inside aliasedFiles = aliasedFiles := below
  rw [Site.starting, below]
  exact ⟨⟨last, 1, 1, []⟩, ((toOther.tail (.passedOver rfl)).trans toModule).tail .wrote,
    rfl, rfl, rfl⟩

/-- Pages that keep clear of each other and of all files by the text of their paths alone do not
make a batch independent of the order: one file after the other gives two pages, and another order
gives one page and a failure. -/
theorem not_agrees_aliased :
    aliasedTree.Sound ∧ aliasedFiles.Nodup ∧
      (∀ file ∈ aliasedFiles, ∃ location, file = pathOf location) ∧
      (∀ place target, aliasedTree.get? place ≠ some (.link target)) ∧
      (∀ file ∈ aliasedFiles, ∀ output, aliasedLayout.pagePath file = .ok output →
        (∀ other ∈ aliasedFiles, other.startsWith output = false) ∧
        ∀ other ∈ aliasedFiles, file ≠ other → ∀ otherOutput,
          aliasedLayout.pagePath other = .ok otherOutput →
            otherOutput.startsWith output = false) ∧
      (∀ file ∈ aliasedFiles, ∀ failure,
        (aliasedBatch.renderFile aliasedTree file).page = .error failure →
          failure.isRecoverable = true) ∧
      (aliasedBatch.run aliasedFiles aliasedTree).result = .ok ⟨2, 0, 0⟩ ∧
      ∃ site : Site, Relation.ReflTransGen Site.Step
          (Site.starting aliasedBatch aliasedFiles (fun _ => aliasedName) aliasedTree) site ∧
        site.tasks = [] ∧ site.written = 1 ∧ site.failed = 1 := by
  obtain ⟨sound, noLinks, distinct, -, -, apart⟩ := files_aliased
  refine ⟨sound, distinct, fun file mem => ?_, ne_link_of_links noLinks,
    fun file mem output paged => ?_, fun file mem failure fails => ?_, result_aliased,
    reaches_aliased⟩
  · have located : aliasedFiles =
        [pathOf ["R".toList, "a.py".toList], pathOf ["R".toList, "a.py.html".toList]] := rfl
    rw [located] at mem
    rcases List.mem_pair.mp mem with same | same
    · exact ⟨_, same⟩
    · exact ⟨_, same⟩
  · obtain ⟨offFiles, offPages⟩ := apart _ (mem_aliasedPages mem paged)
    exact ⟨offFiles, fun other otherMem different otherOutput otherPaged =>
      offPages _ (mem_aliasedPages otherMem otherPaged) different⟩
  · obtain ⟨page, known, rfl⟩ : ∃ page ∈ aliasedPages, page.1 = file := List.mem_map.mp mem
    exact isRecoverable_of_renderFile (pagePath_aliased page known) fails

end Batch
end Hyperlisting
