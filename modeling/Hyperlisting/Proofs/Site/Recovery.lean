import Hyperlisting.Proofs.Site.Independence
import Hyperlisting.Proofs.Site.Indexing
import Hyperlisting.Proofs.Site.Rendering

/-! Which failures a listing can meet. Highlights and cross references always fit their source, so
a page fails only for a file outside the root; and as no indexed file at or below the root of a job
is the root itself, each of them is either written or passed over for a recoverable failure. -/

namespace Hyperlisting

open Log

variable {tree : FileTree} {index : Index} {layout : Layout} {file path : Path} {source : Text}
  {nesting : Nesting} {failure : Failure}

namespace Batch

variable {batch : Batch} {state : State} {files : List Path}

theorem failure_of_publish (fails : (batch.publish path tree).1.page = .error failure) :
    (∃ output cause, failure = .write output cause) ∨ (∃ cause, failure = .read path cause) ∨
      ∃ source, (batch.renderSource path source).page = .error failure := by
  unfold publish at fails
  dsimp only at fails
  split at fails
  · rename_i failure' unrendered
    obtain rfl := Except.error.inj (unrendered.symm.trans fails)
    unfold renderFile at unrendered
    split at unrendered
    · exact .inr (.inl ⟨_, (Except.error.inj unrendered).symm⟩)
    · exact .inr (.inr ⟨_, unrendered⟩)
  · rename_i page rendered
    split at fails
    · rw [rendered] at fails
      cases fails
    · exact .inl ⟨_, _, (Except.error.inj fails).symm⟩

/-- Each of some files is either written or has failed in a way that does not stop the batch, and
the events tell which. -/
structure Tally (batch : Batch) (events : Array Event) (files written failed : List Path) :
    Prop where
  perm : (written ++ failed).Perm files
  written : ∀ path ∈ written, ∃ output, batch.layout.pagePath path = .ok output ∧
    .wrotePage output ∈ events
  failed : ∀ path ∈ failed, ∃ failure : Failure, failure.isRecoverable = true ∧
    .failed path failure ∈ events

theorem Tally.mono {events more : Array Event} {written failed : List Path}
    (tally : batch.Tally events files written failed)
    (kept : ∀ event ∈ events, event ∈ more) : batch.Tally more files written failed where
  perm := tally.perm
  written := fun path mem =>
    let ⟨output, paged, reported⟩ := tally.written path mem
    ⟨output, paged, kept _ reported⟩
  failed := fun path mem =>
    let ⟨failure, recoverable, reported⟩ := tally.failed path mem
    ⟨failure, recoverable, kept _ reported⟩

/-- A file is published, or why not is no reason to stop. -/
theorem step_of_recoverable
    (recovers : ∀ failure, (batch.publish path state.tree).1.page = .error failure →
      failure.isRecoverable = true) :
    (batch.step state path).2 = none ∧
      (∀ event ∈ state.events, event ∈ (batch.step state path).1.events) ∧
      ((∃ output, batch.layout.pagePath path = .ok output ∧
          .wrotePage output ∈ (batch.step state path).1.events ∧
          (batch.step state path).1.written = state.written + 1 ∧
          (batch.step state path).1.failed = state.failed) ∨
        ∃ failure : Failure, failure.isRecoverable = true ∧
          .failed path failure ∈ (batch.step state path).1.events ∧
          (batch.step state path).1.written = state.written ∧
          (batch.step state path).1.failed = state.failed + 1) := by
  have told := pagesWritten_publish batch path state.tree
  unfold step
  cases published : batch.publish path state.tree with
  | mk rendering tree =>
    rw [published] at told recovers
    dsimp only at told recovers ⊢
    cases made : rendering.page with
    | ok page =>
      have output : rendering.output? = some page.output := by
        rw [Rendering.output?, made]
      have paged : batch.layout.pagePath path = .ok page.output :=
        pagePath_of_publish (by rw [published]; exact output)
      have written : .wrotePage page.output ∈ rendering.events := by
        rw [← mem_pagesWritten, told, output]
        exact List.mem_singleton_self _
      refine ⟨rfl, ?_, .inl ⟨page.output, paged, ?_, rfl, rfl⟩⟩
      · intro event mem
        rw [← Array.mem_toList_iff] at mem ⊢
        simp [mem]
      · rw [← Array.mem_toList_iff]
        simp [written]
    | error failure =>
      have recoverable := recovers failure made
      dsimp only
      rw [if_pos recoverable]
      refine ⟨rfl, ?_, .inr ⟨failure, recoverable, ?_, rfl, rfl⟩⟩
      · intro event mem
        rw [← Array.mem_toList_iff] at mem ⊢
        simp [mem]
      · exact Array.mem_push_self

/-- Files that only fail in ways that do not stop the batch are each counted once. -/
theorem tally_steps (state : State) (recovers : ∀ path ∈ files, ∀ tree failure,
      (batch.publish path tree).1.page = .error failure → failure.isRecoverable = true) :
    (batch.steps state files).2 = none ∧
      (∀ event ∈ state.events, event ∈ (batch.steps state files).1.events) ∧
      ∃ written failed, batch.Tally (batch.steps state files).1.events files written failed ∧
        (batch.steps state files).1.written = state.written + written.length ∧
        (batch.steps state files).1.failed = state.failed + failed.length := by
  induction files generalizing state with
  | nil => exact ⟨rfl, fun _ mem => mem, [], [], ⟨.nil, by simp, by simp⟩, rfl, rfl⟩
  | cons path files ih =>
    obtain ⟨recoversFirst, recoversRest⟩ := List.forall_mem_cons.mp recovers
    obtain ⟨none, kept, counted⟩ := step_of_recoverable (recoversFirst state.tree)
    rcases batch.steps_cons state path files with ⟨_, stopped⟩ | ⟨onward, _⟩
    · exact absurd none stopped
    obtain ⟨through, later, written, failed, tally, writtenCount, failedCount⟩ :=
      ih (batch.step state path).1 recoversRest
    rw [onward]
    refine ⟨through, fun event mem => later event (kept event mem), ?_⟩
    rcases counted with
      ⟨output, paged, reported, oneWritten, noneFailed⟩ |
      ⟨failure, recoverable, reported, noneWritten, oneFailed⟩
    · refine ⟨path :: written, failed, ⟨tally.perm.cons path, ?_, tally.failed⟩, ?_, ?_⟩
      · exact List.forall_mem_cons.mpr ⟨⟨output, paged, later _ reported⟩, tally.written⟩
      · rw [writtenCount, oneWritten, List.length_cons]
        omega
      · rw [failedCount, noneFailed]
    · refine ⟨written, path :: failed, ⟨?_, tally.written, ?_⟩, ?_, ?_⟩
      · exact List.perm_middle.trans (tally.perm.cons path)
      · exact List.forall_mem_cons.mpr ⟨⟨failure, recoverable, later _ reported⟩, tally.failed⟩
      · rw [writtenCount, noneWritten]
      · rw [failedCount, oneFailed, List.length_cons]
        omega

theorem tally_run (tree : FileTree) (recovers : ∀ path ∈ batch.inside files, ∀ tree failure,
      (batch.publish path tree).1.page = .error failure → failure.isRecoverable = true) :
    ∃ written failed,
      batch.Tally (batch.run files tree).events (batch.inside files) written failed ∧
        (batch.run files tree).result = .ok ⟨written.length, failed.length,
          (files.filter (!·.startsWith batch.layout.root)).length⟩ := by
  obtain ⟨through, _, written, failed, tally, writtenCount, failedCount⟩ :=
    tally_steps (batch.starting files tree) recovers
  rw [run_of_steps (Prod.ext rfl through)]
  refine ⟨written, failed, tally.mono fun event mem => Array.mem_push_of_mem _ mem, ?_⟩
  dsimp only
  rw [writtenCount, failedCount]
  simp [starting]

end Batch

namespace Job

variable {job : Job} {request : Request}

theorem absolute_of_ofRequest (accepted : ofRequest tree request = .ok job) :
    ∀ path ∈ [job.library, job.target], path.isAbsolute = true := by
  obtain ⟨targetFound, libraryFound, -⟩ := ofRequest_eq_ok_iff.mp accepted
  obtain ⟨_, _, target⟩ := FileTree.exists_resolve_of_canonical targetFound
  obtain ⟨_, _, library⟩ := FileTree.exists_resolve_of_canonical libraryFound
  rw [target, library]
  simp [FileTree.isAbsolute_pathOf]

theorem rooted_of_ofRequest (accepted : ofRequest tree request = .ok job) :
    job.root.isAbsolute = true := by
  have absolute := absolute_of_ofRequest accepted job.target (by simp)
  obtain ⟨atDirectory, atFile⟩ := root_of_ofRequest accepted
  cases isFile : tree.isFile job.target with
  | false => rw [atDirectory isFile, absolute]
  | true => rw [Path.isAbsolute_parent? (atFile isFile), absolute]

theorem isSource_of_indexed (accepted : ofRequest tree request = .ok job)
    (indexed : file ∈ (job.index tree).index.files.toList) :
    tree.IsSource file ∧ ∃ text, tree.readText file = .ok text :=
  Indexing.isSource_of_mem_build (absolute_of_ofRequest accepted) indexed

/-- An indexed file is not the root of its job: the root is no file. -/
theorem components_ne_root (named : ∀ name ∈ tree.current, Path.IsFileName name)
    (accepted : ofRequest tree request = .ok job)
    (indexed : file ∈ (job.index tree).index.files.toList) :
    job.root.components ≠ file.components := by
  obtain ⟨place, placed, target⟩ :=
    FileTree.exists_resolve_of_canonical (ofRequest_eq_ok_iff.mp accepted).1
  obtain ⟨⟨location, content, rfl, standing, isFile⟩, text, read⟩ :=
    isSource_of_indexed accepted indexed
  have names : ∀ name ∈ place, Path.IsFileName name :=
    FileTree.names_of_resolve (.inr named) placed
  obtain ⟨atDirectory, atFile⟩ := root_of_ofRequest accepted
  intro same
  rw [FileTree.components_pathOf standing.names] at same
  cases targetIsFile : tree.isFile job.target with
  | false =>
    rw [atDirectory targetIsFile, target, FileTree.components_pathOf names] at same
    obtain rfl := FileTree.eq_of_map_name (List.cons.inj same).2
    rw [target, FileTree.isFile_of_readText read] at targetIsFile
    cases targetIsFile
  | true =>
    have above := atFile targetIsFile
    rw [Path.components_of_isAbsolute (rooted_of_ofRequest accepted), Path.steps_parent? above, target,
      FileTree.steps_pathOf names] at same
    rcases List.eq_nil_or_concat' place with rfl | ⟨front, last, rfl⟩
    · rw [target] at above
      cases above
    · -- the target would be an entry below a file
      rw [List.map_append, List.map_singleton, List.dropLast_concat] at same
      obtain rfl := FileTree.eq_of_map_name (List.cons.inj same).2
      rw [target, FileTree.isFile_below_file standing isFile names] at targetIsFile
      cases targetIsFile

/-- Every indexed file at or below the root of a job has a page path. -/
theorem exists_pagePath_of_indexed (named : ∀ name ∈ tree.current, Path.IsFileName name)
    (accepted : ofRequest tree request = .ok job)
    (indexed : file ∈ (job.index tree).index.files.toList)
    (below : file.startsWith job.root = true) :
    ∃ output, job.layout.pagePath file = .ok output := by
  have isRoot := components_ne_root named accepted indexed
  obtain ⟨⟨location, content, rfl, standing, isFile⟩, _⟩ := isSource_of_indexed accepted indexed
  obtain ⟨front, last, rfl⟩ : ∃ front last, location = front ++ [last] := by
    rcases List.eq_nil_or_concat' location with rfl | named
    · cases isFile
    · exact named
  have steps := FileTree.steps_pathOf standing.names
  rw [List.map_append, List.map_singleton] at steps
  exact Layout.exists_pagePath (Path.startsWith_iff.mp below) isRoot
    (Path.fileName?_of_steps steps)

theorem batch_eq_listing (job : Job) (index : Index) :
    job.batch index = Batch.listing index job.layout job.nesting := rfl

theorem recovers_of_indexed (named : ∀ name ∈ tree.current, Path.IsFileName name)
    (accepted : ofRequest tree request = .ok job)
    (indexed : file ∈ (job.index tree).index.files.toList)
    (below : file.startsWith job.root = true) {after : FileTree}
    (fails : ((job.batch index).publish file after).1.page = .error failure) :
    failure.isRecoverable = true := by
  rcases Batch.failure_of_publish fails with ⟨_, _, rfl⟩ | ⟨_, rfl⟩ | ⟨source, unrendered⟩
  · rfl
  · rfl
  · obtain ⟨output, paged⟩ := exists_pagePath_of_indexed named accepted indexed below
    rw [batch_eq_listing] at unrendered
    rw [Batch.failure_of_renderSource unrendered] at paged
    cases paged

theorem result_pages (job : Job) (index : Index) (tree : FileTree) :
    (∃ cause, (job.pages index tree).result = .error (.output job.output cause)) ∨
      ∃ after, (job.pages index tree).result =
          (((job.batch index).run index.files.toList after).result).mapError .page ∧
        ∀ event ∈ ((job.batch index).run index.files.toList after).events,
          event ∈ (job.pages index tree).events := by
  unfold pages
  split
  · rename_i cause _ _
    exact .inl ⟨cause, rfl⟩
  · rename_i created after _
    refine .inr ⟨after, ?_⟩
    dsimp only
    split
    · rename_i failed
      rw [failed]
      exact ⟨rfl, fun event mem => Array.mem_append_right _ mem⟩
    · rename_i report done
      rw [done]
      refine ⟨rfl, fun event mem => ?_⟩
      rw [← Array.mem_toList_iff] at mem ⊢
      simp [mem]

/-- No failure of a page ends a listing, and each indexed file at or below the root is counted
once, as written or as failed. -/
theorem tally_generate (named : ∀ name ∈ tree.current, Path.IsFileName name)
    (accepted : ofRequest tree request = .ok job) :
    (∀ failure, (job.generate tree).result ≠ .error (.page failure)) ∧
      ∀ report, (job.generate tree).result = .ok report →
        ∃ written failed,
          (job.batch (job.index tree).index).Tally (job.generate tree).events
            ((job.index tree).index.files.toList.filter (·.startsWith job.root)) written failed ∧
          (written ++ failed).Nodup ∧
          report.written = written.length ∧ report.failed = failed.length := by
  have result : (job.generate tree).result = (job.pages (job.index tree).index tree).result := rfl
  rw [result]
  rcases job.result_pages (job.index tree).index tree with ⟨cause, failed⟩ | ⟨after, ran, kept⟩
  · rw [failed]
    exact ⟨fun failure => by simp, fun report => by simp⟩
  have recovers : ∀ file ∈ (job.batch (job.index tree).index).inside
      (job.index tree).index.files.toList, ∀ after failure,
      ((job.batch (job.index tree).index).publish file after).1.page = .error failure →
        failure.isRecoverable = true := by
    intro file mem after failure fails
    obtain ⟨indexed, below⟩ := List.mem_filter.mp mem
    exact recovers_of_indexed named accepted indexed below fails
  obtain ⟨written, failed, tally, done⟩ := Batch.tally_run after recovers
  rw [ran, done]
  refine ⟨fun failure => by simp [Except.mapError], ?_⟩
  intro report same
  obtain rfl := Except.ok.inj same
  refine ⟨written, failed, tally.mono ?_, ?_, rfl, rfl⟩
  · intro event mem
    exact Array.mem_append_right _ (kept event mem)
  · rw [tally.perm.nodup_iff]
    exact (Indexing.nodup_build (absolute_of_ofRequest accepted)).filter _

end Job

/-- Highlights and cross references fit every source, whatever was indexed, so they always compose
and a page fails only for a file outside the root. A listing never ends with the failure of a page:
each indexed file at or below its root is counted once, as written or as failed. -/
theorem listing_recovers :
    (∀ (files : List (Path × Text)) (layout : Layout) (file : Path) (source : Text)
        (nesting : Nesting),
      (∀ run ∈ Highlight.runs source, run.check source = .ok ()) ∧
      (∀ run ∈ CrossReference.runs (Index.ofFiles files) layout file source,
        run.check source = .ok ()) ∧
      (∃ c, Composition.compose source (pageRuns (Index.ofFiles files) layout file source) nesting =
        .ok c) ∧
      ∀ failure, ((Batch.listing (Index.ofFiles files) layout nesting).renderSource file source).page
          = .error failure → failure = .outsideRoot file layout.root) ∧
    ∀ (tree : FileTree) (request : Request) (job : Job),
      (∀ name ∈ tree.current, Path.IsFileName name) → Job.ofRequest tree request = .ok job →
        (∀ failure, (job.generate tree).result ≠ .error (.page failure)) ∧
        ∀ report, (job.generate tree).result = .ok report →
          ∃ written failed,
            (job.batch (job.index tree).index).Tally (job.generate tree).events
              ((job.index tree).index.files.toList.filter (·.startsWith job.root))
              written failed ∧
            (written ++ failed).Nodup ∧
            report.written = written.length ∧ report.failed = failed.length := by
  constructor
  · intro files layout file source nesting
    refine ⟨?_, ?_, ?_, ?_⟩
    · exact fun run mem => (Highlight.overToken_of_mem_runs mem).check_eq_ok
    · exact fun run mem => (CrossReference.overToken_of_mem_runs mem).check_eq_ok
    · obtain ⟨c, composed, _⟩ :=
        exists_compose_pageRuns (Index.ofFiles files) layout file source nesting
      exact ⟨c, composed⟩
    · exact fun failure fails =>
        Layout.failure_of_pagePath (Batch.failure_of_renderSource fails)
  · exact fun tree request job named accepted => Job.tally_generate named accepted

namespace Job

/-- Two modules, and an output directory beside them in which a directory has the name of the second
one's page, and another one a module's name. -/
def reusedTree : FileTree :=
  .ofEntries ["R".toList] [(["R".toList], Entry.directory),
    (["R".toList, "a.py".toList], Entry.file ByteArray.empty),
    (["R".toList, "b.py".toList], Entry.file ByteArray.empty),
    (["R".toList, "html".toList], Entry.directory),
    (["R".toList, "html".toList, "b.py.html".toList], Entry.directory),
    (["R".toList, "html".toList, "c.py".toList], Entry.directory)]

def reusedRequest : Request where
  library := ⟨".".toList⟩
  target := ⟨"a.py".toList⟩

def reusedJob : Job where
  library := ⟨"/R".toList⟩
  target := ⟨"/R/a.py".toList⟩
  root := ⟨"/R".toList⟩
  output := ⟨"/R/html".toList⟩
  nesting := .linksInnermost
  workers := 0

theorem ofRequest_reusedRequest : ofRequest reusedTree reusedRequest = .ok reusedJob :=
  eq_ok_of_toOption (by decide +kernel)

theorem files_reusedTree : (reusedJob.index reusedTree).index.files.toList =
    [⟨"/R/a.py".toList⟩, ⟨"/R/b.py".toList⟩] := by
  have found : ([reusedJob.library, reusedJob.target].flatMap
        reusedTree.findSources).filterMap FileTree.Finding.source? =
      [⟨"/R/a.py".toList⟩, ⟨"/R/b.py".toList⟩, ⟨"/R/a.py".toList⟩] := by
    decide +kernel
  have sources : FileTree.sourcesOf ([reusedJob.library, reusedJob.target].flatMap
        reusedTree.findSources) = [⟨"/R/a.py".toList⟩, ⟨"/R/b.py".toList⟩] := by
    rw [FileTree.sourcesOf, found]
    cbv
  have build : (reusedJob.index reusedTree).index =
      (Indexing.build reusedTree [reusedJob.library, reusedJob.target]).index := rfl
  rw [build, Indexing.files_build, sources]
  decide +kernel

/-- The page of the first module is written, and the second one's is not. -/
theorem write_reused (html : Text) :
    ∃ after,
      (Page.mk ⟨"/R/a.py".toList⟩ ⟨"/R/html/a.py.html".toList⟩ html).write reusedTree =
        .ok () after ∧
      after.readText ⟨"/R/b.py".toList⟩ = .ok [] ∧
      ∀ other, ∃ cause last,
        (Page.mk ⟨"/R/b.py".toList⟩ ⟨"/R/html/b.py.html".toList⟩ other).write after =
          .error cause last :=
  ⟨_, by cbv, by cbv, fun other => ⟨_, _, by cbv⟩⟩

theorem result_reused : (reusedJob.generate reusedTree).result = .ok ⟨1, 1, 0⟩ := by
  have ensured : ensureOutput reusedJob.output reusedTree = .ok [] reusedTree :=
    if_pos (by decide +kernel)
  have result : (reusedJob.generate reusedTree).result = _ := (pages_of_ensured ensured).2
  rw [result, files_reusedTree]
  generalize (reusedJob.index reusedTree).index = index
  have read : reusedTree.readText ⟨"/R/a.py".toList⟩ = .ok [] := by cbv
  have paged : reusedJob.layout.pagePath ⟨"/R/a.py".toList⟩ =
      .ok ⟨"/R/html/a.py.html".toList⟩ := by cbv
  have otherPaged : reusedJob.layout.pagePath ⟨"/R/b.py".toList⟩ =
      .ok ⟨"/R/html/b.py.html".toList⟩ := by cbv
  obtain ⟨html, rendered⟩ := Batch.exists_renderFile index .linksInnermost read paged
  obtain ⟨after, writes, otherRead, fails⟩ := write_reused html
  obtain ⟨other, otherRendered⟩ := Batch.exists_renderFile index .linksInnermost otherRead otherPaged
  obtain ⟨cause, last, fails⟩ := fails other
  let batch := reusedJob.batch index
  let files : List Path := [⟨"/R/a.py".toList⟩, ⟨"/R/b.py".toList⟩]
  have failed := (Batch.publish_of_unwritten otherRendered fails).1
  have verdict : Batch.Verdict (false = true) (batch.publish ⟨"/R/b.py".toList⟩ after).1.page :=
    failed.symm ▸ ⟨rfl, Bool.false_ne_true⟩
  have split : files.filter (·.startsWith reusedJob.root) = files ∧
      files.filter (!·.startsWith reusedJob.root) = [] := by
    decide +kernel
  have below : batch.inside files = files := split.1
  change Except.mapError _ (batch.run files reusedTree).result = _
  rw [Batch.result_of_pair below rendered writes verdict]
  exact congrArg (fun outside : List Path => Except.ok (Report.mk 1 1 outside.length)) split.2

end Job

/-- Both modules are counted, one as written and one as failed. -/
theorem listing_recovers_reusedTree :
    (∀ name ∈ Job.reusedTree.current, Path.IsFileName name) ∧
      Job.ofRequest Job.reusedTree Job.reusedRequest = .ok Job.reusedJob ∧
      (∀ failure, (Job.reusedJob.generate Job.reusedTree).result ≠ .error (.page failure)) ∧
      (Job.reusedJob.generate Job.reusedTree).result = .ok ⟨1, 1, 0⟩ ∧
      ∃ written failed : Path,
        [written, failed].Perm [⟨"/R/a.py".toList⟩, ⟨"/R/b.py".toList⟩] ∧
        (∃ output, Job.reusedJob.layout.pagePath written = .ok output ∧
          .wrotePage output ∈ (Job.reusedJob.generate Job.reusedTree).events) ∧
        ∃ failure : Failure, failure.isRecoverable = true ∧
          .failed failed failure ∈ (Job.reusedJob.generate Job.reusedTree).events := by
  have named : ∀ name ∈ Job.reusedTree.current, Path.IsFileName name :=
    List.forall_mem_singleton.mpr ⟨by decide +kernel, by decide +kernel⟩
  obtain ⟨goesOn, counted⟩ := listing_recovers.2 _ _ _ named Job.ofRequest_reusedRequest
  obtain ⟨written, failed, tally, -, oneWritten, oneFailed⟩ := counted _ Job.result_reused
  obtain ⟨first, rfl⟩ := List.length_eq_one_iff.mp oneWritten.symm
  obtain ⟨second, rfl⟩ := List.length_eq_one_iff.mp oneFailed.symm
  have below : (Job.reusedJob.index Job.reusedTree).index.files.toList.filter
      (·.startsWith Job.reusedJob.root) = [⟨"/R/a.py".toList⟩, ⟨"/R/b.py".toList⟩] := by
    rw [Job.files_reusedTree]
    decide +kernel
  refine ⟨named, Job.ofRequest_reusedRequest, goesOn, Job.result_reused, first, second, ?_, ?_, ?_⟩
  · simpa only [below, List.singleton_append] using tally.perm
  · exact tally.written first (List.mem_singleton_self first)
  · exact tally.failed second (List.mem_singleton_self second)

end Hyperlisting
