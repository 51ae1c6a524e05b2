import Hyperlisting.Proofs.Listing
import Hyperlisting.Site.Generation

/-! Which pages a listing writes: those of the indexed files at or below the root, and when no
page fails, all of these. The root is the target, unless the target is a file. -/

namespace Hyperlisting

open Log

variable {tree : FileTree} {path output : Path}

/-- The page whose writing an event reports. -/
def Log.Event.page? : Event → Option Path
  | .wrotePage output => some output
  | _ => none

/-- The pages that some events report as written, in order. -/
def pagesWritten (events : List Event) : List Path := events.filterMap Event.page?

@[simp] theorem pagesWritten_nil : pagesWritten [] = [] := rfl

@[simp] theorem pagesWritten_cons (event : Event) (events : List Event) :
    pagesWritten (event :: events) = event.page?.toList ++ pagesWritten events := by
  rw [pagesWritten, List.filterMap_cons]
  cases event.page? <;> rfl

@[simp] theorem pagesWritten_append (events more : List Event) :
    pagesWritten (events ++ more) = pagesWritten events ++ pagesWritten more :=
  List.filterMap_append

theorem mem_pagesWritten {events : List Event} :
    output ∈ pagesWritten events ↔ .wrotePage output ∈ events := by
  rw [pagesWritten, List.mem_filterMap]
  constructor
  · rintro ⟨event, mem, page⟩
    cases event <;> simp_all [Event.page?]
  · intro mem
    exact ⟨_, mem, rfl⟩

theorem eq_ok_of_toOption {ε α : Type} {result : Except ε α} {a : α}
    (succeeds : result.toOption = some a) : result = .ok a := by
  cases result with
  | error fault => cases succeeds
  | ok b => exact congrArg Except.ok (Option.some.inj succeeds)

namespace Batch

variable {batch : Batch} {state : State} {files : List Path}

theorem pagePath_of_renderFile {page : Page}
    (rendered : (batch.renderFile tree path).page = .ok page) :
    batch.layout.pagePath path = .ok page.output := by
  unfold renderFile at rendered
  split at rendered
  · cases rendered
  · obtain ⟨composition, _, rendered⟩ := exists_of_bind_eq_ok rendered
    obtain ⟨_, _, assembled⟩ := exists_of_bind_eq_ok rendered
    exact Layout.pagePath_of_assemble assembled

theorem pagesWritten_renderFile : pagesWritten (batch.renderFile tree path).events = [] := by
  unfold renderFile
  split
  · rfl
  · rw [pagesWritten, List.filterMap_eq_nil_iff]
    intro event mem
    obtain ⟨annotated, _, rfl⟩ := List.mem_map.mp mem
    rfl

/-- The page that a rendering came to, if it did. -/
def Rendering.output? (rendering : Rendering) : Option Path :=
  match rendering.page with
  | .ok page => some page.output
  | .error _ => none

theorem pagePath_of_publish (made : (batch.publish path tree).1.output? = some output) :
    batch.layout.pagePath path = .ok output := by
  unfold publish at made
  dsimp only at made
  split at made
  · rename_i failure failed
    simp [Rendering.output?, failed] at made
  · rename_i page rendered
    split at made
    · simp only [Rendering.output?, rendered, Option.some.injEq] at made
      exact made ▸ pagePath_of_renderFile rendered
    · cases made

/-- A page is reported exactly when it was written. -/
theorem pagesWritten_publish (batch : Batch) (path : Path) (tree : FileTree) :
    pagesWritten (batch.publish path tree).1.events =
      (batch.publish path tree).1.output?.toList := by
  have silent : pagesWritten (batch.renderFile tree path).events = [] := pagesWritten_renderFile
  unfold publish
  dsimp only
  split
  · rename_i failure failed
    rw [silent, Rendering.output?, failed]
    rfl
  · rename_i page rendered
    split
    · rw [pagesWritten_append, silent, Rendering.output?, rendered]
      rfl
    · exact silent

/-- A step reports the page that it writes, and a file without a page counts as failed unless it
stops the batch. -/
theorem step_spec (batch : Batch) (state : State) (path : Path) :
    pagesWritten (batch.step state path).1.events.toList =
        pagesWritten state.events.toList ++ (batch.publish path state.tree).1.output?.toList ∧
      state.failed ≤ (batch.step state path).1.failed ∧
      ((batch.step state path).2 = none → (batch.step state path).1.failed = state.failed →
        ∃ output, (batch.publish path state.tree).1.output? = some output) := by
  have told := pagesWritten_publish batch path state.tree
  have due : pagesWritten state.progress.tick.due = [] := by
    unfold Progress.due
    split <;> rfl
  unfold step
  cases published : batch.publish path state.tree with
  | mk rendering tree =>
    rw [published] at told
    dsimp only at told ⊢
    cases made : rendering.page with
    | ok page =>
      refine ⟨?_, Nat.le_refl _, fun _ _ => ⟨page.output, by simp [Rendering.output?, made]⟩⟩
      simp [told, due]
    | error failure =>
      dsimp only
      split
      · refine ⟨?_, Nat.le_succ _, fun _ same => absurd same (Nat.succ_ne_self _)⟩
        simp [told, due, Event.page?]
      · refine ⟨?_, Nat.le_refl _, fun none => absurd none (by simp)⟩
        simp [told, due]

theorem steps_cons (batch : Batch) (state : State) (path : Path) (files : List Path) :
    (batch.steps state (path :: files) = batch.step state path ∧
        (batch.step state path).2 ≠ none) ∨
      batch.steps state (path :: files) = batch.steps (batch.step state path).1 files ∧
        (batch.step state path).2 = none := by
  rw [steps]
  rcases batch.step state path with ⟨next, _ | failure⟩
  · exact .inr ⟨rfl, rfl⟩
  · exact .inl ⟨rfl, by simp⟩

/-- Steps keep what was reported before. -/
theorem mem_pagesWritten_steps (batch : Batch) (state : State) (files : List Path)
    (mem : output ∈ pagesWritten state.events.toList) :
    output ∈ pagesWritten (batch.steps state files).1.events.toList := by
  induction files generalizing state with
  | nil => exact mem
  | cons path files ih =>
    have next : output ∈ pagesWritten (batch.step state path).1.events.toList := by
      rw [(batch.step_spec state path).1]
      exact List.mem_append_left _ mem
    rcases batch.steps_cons state path files with ⟨stopped, _⟩ | ⟨onward, _⟩
    · rwa [stopped]
    · rw [onward]
      exact ih _ next

theorem mem_pagesWritten_steps_cons
    (made : (batch.publish path state.tree).1.output? = some output) :
    output ∈ pagesWritten (batch.steps state (path :: files)).1.events.toList := by
  have written : output ∈ pagesWritten (batch.step state path).1.events.toList := by
    rw [(batch.step_spec state path).1, made]
    simp
  rcases batch.steps_cons state path files with ⟨stopped, _⟩ | ⟨onward, _⟩
  · rwa [stopped]
  · rw [onward]
    exact batch.mem_pagesWritten_steps _ files written

/-- A page that some steps write is the page of one of their files. -/
theorem exists_of_mem_pagesWritten_steps
    (mem : output ∈ pagesWritten (batch.steps state files).1.events.toList) :
    output ∈ pagesWritten state.events.toList ∨
      ∃ path ∈ files, batch.layout.pagePath path = .ok output := by
  induction files generalizing state with
  | nil => exact .inl mem
  | cons path files ih =>
    have here : output ∈ pagesWritten (batch.step state path).1.events.toList →
        output ∈ pagesWritten state.events.toList ∨
          ∃ file ∈ path :: files, batch.layout.pagePath file = .ok output := by
      rw [(batch.step_spec state path).1, List.mem_append, Option.mem_toList]
      exact Or.imp_right fun made => ⟨path, List.mem_cons_self, pagePath_of_publish made⟩
    rcases batch.steps_cons state path files with ⟨stopped, _⟩ | ⟨onward, _⟩
    · exact here (stopped ▸ mem)
    · rcases ih (onward ▸ mem) with earlier | ⟨file, later, paged⟩
      · exact here earlier
      · exact .inr ⟨file, List.mem_cons_of_mem _ later, paged⟩

theorem failed_le_steps (batch : Batch) (state : State) (files : List Path) :
    state.failed ≤ (batch.steps state files).1.failed := by
  induction files generalizing state with
  | nil => exact Nat.le_refl _
  | cons path files ih =>
    have counted := (batch.step_spec state path).2.1
    rcases batch.steps_cons state path files with ⟨stopped, _⟩ | ⟨onward, _⟩
    · rwa [stopped]
    · rw [onward]
      exact Nat.le_trans counted (ih _)

/-- Steps that go through without a failure write the page of every file. -/
theorem exists_written_of_mem (through : (batch.steps state files).2 = none)
    (complete : (batch.steps state files).1.failed = state.failed) (mem : path ∈ files) :
    ∃ output, batch.layout.pagePath path = .ok output ∧
      output ∈ pagesWritten (batch.steps state files).1.events.toList := by
  induction files generalizing state with
  | nil => cases mem
  | cons first files ih =>
    obtain ⟨_, counted, made⟩ := batch.step_spec state first
    rcases batch.steps_cons state first files with ⟨stopped, failure⟩ | ⟨onward, none⟩
    · exact absurd (stopped ▸ through) failure
    rw [onward] at through complete ⊢
    have later := batch.failed_le_steps (batch.step state first).1 files
    rcases List.mem_cons.mp mem with rfl | mem
    · obtain ⟨output, made⟩ := made none (by omega)
      refine ⟨output, pagePath_of_publish made, ?_⟩
      rw [← onward]
      exact mem_pagesWritten_steps_cons made
    · exact ih through (by omega) mem

/-- The files that a batch takes: those below the root. -/
def inside (batch : Batch) (files : List Path) : List Path :=
  files.filter (·.startsWith batch.layout.root)

/-- Where a batch starts, with the other files reported. -/
def starting (batch : Batch) (files : List Path) (tree : FileTree) : State where
  tree
  progress := .start (batch.inside files).length progressInterval
  events := ((files.filter (!·.startsWith batch.layout.root)).map Event.dependency).toArray

theorem run_eq (batch : Batch) (files : List Path) (tree : FileTree) :
    batch.run files tree =
      match batch.steps (batch.starting files tree) (batch.inside files) with
      | (state, some failure) => ⟨state.tree, state.events, .error failure⟩
      | (state, none) =>
        ⟨state.tree, state.events.push state.progress.finished,
          .ok ⟨state.written, state.failed,
            (files.filter (!·.startsWith batch.layout.root)).length⟩⟩ := by
  rw [run, List.partition_eq_filter_filter]
  rfl

/-- A batch that nothing stops reports what its steps have counted. -/
theorem run_of_steps {ends : State}
    (through : batch.steps (batch.starting files tree) (batch.inside files) = (ends, none)) :
    batch.run files tree = ⟨ends.tree, ends.events.push ends.progress.finished,
      .ok ⟨ends.written, ends.failed,
        (files.filter (!·.startsWith batch.layout.root)).length⟩⟩ := by
  rw [run_eq, through]

theorem pagesWritten_starting (batch : Batch) (files : List Path) (tree : FileTree) :
    pagesWritten (batch.starting files tree).events.toList = [] := by
  simp [starting, pagesWritten, Function.comp_def, Event.page?]

theorem pagesWritten_run (batch : Batch) (files : List Path) (tree : FileTree) :
    pagesWritten (batch.run files tree).events.toList =
      pagesWritten
        (batch.steps (batch.starting files tree) (batch.inside files)).1.events.toList := by
  rw [run_eq]
  split
  · rename_i state failure stopped
    rw [stopped]
  · rename_i state through
    simp [through, Progress.finished, Event.page?]

theorem exists_of_mem_pagesWritten_run
    (mem : output ∈ pagesWritten (batch.run files tree).events.toList) :
    ∃ path ∈ files, path.startsWith batch.layout.root = true ∧
      batch.layout.pagePath path = .ok output := by
  rw [pagesWritten_run] at mem
  rcases exists_of_mem_pagesWritten_steps mem with earlier | ⟨path, isInside, paged⟩
  · rw [pagesWritten_starting] at earlier
    cases earlier
  · obtain ⟨inFiles, below⟩ := List.mem_filter.mp isInside
    exact ⟨path, inFiles, below, paged⟩

/-- A batch without a failure writes the page of every file below the root. -/
theorem exists_written_run {report : Report} (done : (batch.run files tree).result = .ok report)
    (complete : report.failed = 0) (mem : path ∈ files)
    (below : path.startsWith batch.layout.root = true) :
    ∃ output, batch.layout.pagePath path = .ok output ∧
      output ∈ pagesWritten (batch.run files tree).events.toList := by
  have isInside : path ∈ batch.inside files := List.mem_filter.mpr ⟨mem, below⟩
  rw [pagesWritten_run]
  rw [run_eq] at done
  split at done
  · cases done
  · rename_i state through
    obtain rfl := Except.ok.inj done
    apply exists_written_of_mem _ _ isInside
    · rw [through]
    · rw [through]
      exact complete

end Batch

namespace Indexing

theorem pagesWritten_add (tree : FileTree) (indexing : Indexing) (file : Path) :
    pagesWritten (indexing.add tree file).events.toList =
      pagesWritten indexing.events.toList := by
  unfold add
  split
  · simp [Event.page?]
  · simp [Event.page?]

theorem pagesWritten_build (tree : FileTree) (paths : List Path) :
    pagesWritten (build tree paths).events.toList = [] := by
  have silent (files : List Path) (indexing : Indexing) :
      pagesWritten (files.foldl (add tree) indexing).events.toList =
        pagesWritten indexing.events.toList := by
    induction files generalizing indexing with
    | nil => rfl
    | cons file files ih => rw [List.foldl_cons, ih, pagesWritten_add]
  rw [build, silent]
  simp [pagesWritten, Event.page?]

end Indexing

/-- An output directory that is there is left alone; one that is not is made and reported. -/
theorem ensureOutput_eq_ok_iff {directory : Path} {created : List Event} {after : FileTree} :
    ensureOutput directory tree = .ok created after ↔
      tree.isDirectory directory = true ∧ created = [] ∧ after = tree ∨
        tree.isDirectory directory = false ∧ created = [.createdDirectory directory] ∧
          FileTree.makeDirectories directory tree = .ok () after := by
  unfold ensureOutput
  cases tree.isDirectory directory with
  | true => simp [eq_comm]
  | false =>
    rw [if_neg Bool.false_ne_true]
    change (FileTree.makeDirectories directory >>= _) tree = _ ↔ _
    rw [FileStep.bind_apply]
    cases FileTree.makeDirectories directory tree with
    | error cause failed => simp
    | ok value made => simp [pure, EStateM.pure, eq_comm]

theorem pagesWritten_ensureOutput {directory : Path} {created : List Event} {after : FileTree}
    (ensured : ensureOutput directory tree = .ok created after) : pagesWritten created = [] := by
  rcases ensureOutput_eq_ok_iff.mp ensured with ⟨-, rfl, -⟩ | ⟨-, rfl, -⟩ <;> rfl

namespace Job

variable {job : Job} {request : Request} {index : Index} {created : List Event} {after : FileTree}

/-- What a batch of a job composes with a file are the runs of a page. -/
theorem flatMap_annotate (job : Job) (index : Index) (file : Path) (source : Text) :
    ((job.batch index).annotate file source).flatMap Prod.snd =
      pageRuns index job.layout file source := by
  change Highlight.runs source ++ (CrossReference.runs index job.layout file source ++ []) = _
  rw [List.append_nil, pageRuns]

theorem pagesWritten_generate (job : Job) (tree : FileTree) :
    pagesWritten (job.generate tree).events.toList =
      pagesWritten (job.pages (job.index tree).index tree).events.toList := by
  have built := Indexing.pagesWritten_build tree [job.library, job.target]
  simp [generate, Job.index, Index.status, Event.page?, built]

theorem pagesWritten_pages (ensured : ensureOutput job.output tree = .ok created after) :
    pagesWritten (job.pages index tree).events.toList =
      pagesWritten ((job.batch index).run index.files.toList after).events.toList := by
  have silent := pagesWritten_ensureOutput ensured
  unfold pages
  rw [ensured]
  dsimp only
  split
  · simp [silent, Event.page?]
  · rename_i report _
    have closing : pagesWritten (job.closing report) = [] := by
      unfold closing
      split <;> simp [Event.page?]
    simp [silent, closing, Event.page?]

/-- Pages are made by a batch, once the output directory is there. -/
theorem pages_cases (job : Job) (index : Index) (tree : FileTree) :
    (∃ created after, ensureOutput job.output tree = .ok created after ∧
        ∀ report, (job.pages index tree).result = .ok report →
          ((job.batch index).run index.files.toList after).result = .ok report) ∨
      pagesWritten (job.pages index tree).events.toList = [] ∧
        ∀ report, (job.pages index tree).result ≠ .ok report := by
  unfold pages
  split
  · exact .inr ⟨by simp [Event.page?], fun report => by simp⟩
  · rename_i created after ensured
    refine .inl ⟨created, after, ensured, ?_⟩
    intro report done
    dsimp only at done
    split at done
    · cases done
    · rename_i report' finished
      rw [finished, Except.ok.inj done]

theorem pages_of_ensured (ensured : ensureOutput job.output tree = .ok created after) :
    (job.pages index tree).tree = ((job.batch index).run index.files.toList after).tree ∧
      (job.pages index tree).result =
        ((job.batch index).run index.files.toList after).result.mapError .page := by
  unfold pages
  rw [ensured]
  dsimp only
  split
  · rename_i failed
    exact ⟨rfl, by rw [failed]; rfl⟩
  · rename_i finished
    exact ⟨rfl, by rw [finished]; rfl⟩

/-- Every page that a listing writes is the page of an indexed file below the root. -/
theorem exists_of_mem_pagesWritten_generate
    (mem : output ∈ pagesWritten (job.generate tree).events.toList) :
    ∃ file ∈ (job.index tree).index.files.toList, file.startsWith job.root = true ∧
      job.layout.pagePath file = .ok output := by
  rw [pagesWritten_generate] at mem
  rcases job.pages_cases (job.index tree).index tree with ⟨created, after, ensured, _⟩ | ⟨none, _⟩
  · rw [pagesWritten_pages ensured] at mem
    exact Batch.exists_of_mem_pagesWritten_run mem
  · rw [none] at mem
    cases mem

/-- A listing without a failure has the page of every indexed file below the root. -/
theorem exists_written_generate {report : Report} (done : (job.generate tree).result = .ok report)
    (complete : report.failed = 0) (mem : path ∈ (job.index tree).index.files.toList)
    (below : path.startsWith job.root = true) :
    ∃ output, job.layout.pagePath path = .ok output ∧
      output ∈ pagesWritten (job.generate tree).events.toList := by
  rw [pagesWritten_generate]
  rcases job.pages_cases (job.index tree).index tree with ⟨created, after, ensured, ran⟩ | ⟨_, none⟩
  · rw [pagesWritten_pages ensured]
    obtain ⟨output, paged, written⟩ :=
      Batch.exists_written_run (ran report done) complete mem below
    exact ⟨output, paged, written⟩
  · exact absurd done (none report)

theorem checkReadable_eq_ok_iff {file : Path} :
    checkReadable tree path = .ok file ↔ tree.canonical path = .ok file := by
  unfold checkReadable
  cases tree.canonical path with
  | error cause => simp [Except.mapError]
  | ok other => simp [Except.mapError]

/-- A request holds when its target and its library can be found, the library in a directory and the
target, if it is a file, below one. -/
theorem ofRequest_eq_ok_iff : ofRequest tree request = .ok job ↔
    tree.canonical request.target = .ok job.target ∧
      tree.canonical request.library = .ok job.library ∧
      tree.isDirectory job.library = true ∧ rootOf tree job.target = .ok job.root ∧
      job.output = (FileTree.pathOf tree.current).join (request.output.getD defaultOutput) ∧
      job.nesting = request.nesting ∧ job.workers = request.workers := by
  constructor
  · intro accepted
    obtain ⟨target, targetFound, accepted⟩ := exists_of_bind_eq_ok accepted
    obtain ⟨library, libraryFound, accepted⟩ := exists_of_bind_eq_ok accepted
    split at accepted
    · cases accepted
    · rename_i directory
      obtain ⟨root, rootFound, accepted⟩ := exists_of_bind_eq_ok accepted
      obtain rfl := Except.ok.inj accepted
      exact ⟨checkReadable_eq_ok_iff.mp targetFound, checkReadable_eq_ok_iff.mp libraryFound,
        by simpa using directory, rootFound, rfl, rfl, rfl⟩
  · obtain ⟨library, target, root, output, nesting, workers⟩ := job
    rintro ⟨targetFound, libraryFound, directory, rootFound, rfl, rfl, rfl⟩
    rw [ofRequest, checkReadable_eq_ok_iff.mpr targetFound, ok_bind,
      checkReadable_eq_ok_iff.mpr libraryFound, ok_bind, if_neg (by simp [directory]), rootFound]
    rfl

/-- The root is the target, or for a target file the directory around it. -/
theorem root_of_ofRequest (accepted : ofRequest tree request = .ok job) :
    (tree.isFile job.target = false → job.root = job.target) ∧
      (tree.isFile job.target = true → job.target.parent? = some job.root) := by
  obtain ⟨-, -, -, found, -⟩ := ofRequest_eq_ok_iff.mp accepted
  unfold rootOf at found
  cases isFile : tree.isFile job.target with
  | false =>
    rw [isFile] at found
    exact ⟨fun _ => (Except.ok.inj found).symm, fun file => absurd file Bool.false_ne_true⟩
  | true =>
    rw [isFile, if_pos rfl] at found
    refine ⟨fun file => absurd file (by simp), fun _ => ?_⟩
    split at found
    · rename_i parent above
      rw [above, Except.ok.inj found]
    · cases found

/-- The pages that a listing writes are those of indexed files at or below its root, and without a
failure all of these; the root is the target, or for a target file the directory around it. So
nothing beside the target has a page exactly when no other indexed file lies below the root. -/
theorem wrotePage_generate (accepted : ofRequest tree request = .ok job) :
    (∀ output, .wrotePage output ∈ (job.generate tree).events →
        ∃ file ∈ (job.index tree).index.files,
          file.startsWith job.root = true ∧ job.layout.pagePath file = .ok output) ∧
      (tree.isFile job.target = false → job.root = job.target) ∧
      (tree.isFile job.target = true → job.target.parent? = some job.root) ∧
      ∀ report, (job.generate tree).result = .ok report → report.failed = 0 →
        ((∀ file ∈ (job.index tree).index.files, ∀ output, job.layout.pagePath file = .ok output →
              .wrotePage output ∈ (job.generate tree).events →
              file.startsWith job.target = true) ↔
          ∀ file ∈ (job.index tree).index.files, file.startsWith job.root = true →
            file.startsWith job.target = true) := by
  obtain ⟨atDirectory, atFile⟩ := root_of_ofRequest accepted
  simp only [← Array.mem_toList_iff, ← mem_pagesWritten]
  refine ⟨fun output => exists_of_mem_pagesWritten_generate, atDirectory, atFile, ?_⟩
  intro report done complete
  constructor
  · intro atTarget file isIndexed below
    obtain ⟨output, paged, written⟩ := exists_written_generate done complete isIndexed below
    exact atTarget file isIndexed output paged written
  · intro only file isIndexed output paged _
    exact only file isIndexed (Layout.startsWith_of_pagePath paged)

/-- Two modules beside each other. The second is the target, and their directory the library. -/
def siblingTree : FileTree :=
  .ofEntries [] [(["R".toList], Entry.directory),
    (["R".toList, "p".toList], Entry.directory),
    (["R".toList, "p".toList, "a.py".toList], Entry.file ByteArray.empty),
    (["R".toList, "p".toList, "b.py".toList], Entry.file ByteArray.empty)]

def siblingRequest : Request where
  library := ⟨"/R/p".toList⟩
  target := ⟨"/R/p/b.py".toList⟩
  output := some ⟨"/R/out".toList⟩

def siblingJob : Job where
  library := ⟨"/R/p".toList⟩
  target := ⟨"/R/p/b.py".toList⟩
  root := ⟨"/R/p".toList⟩
  output := ⟨"/R/out".toList⟩
  nesting := .linksInnermost
  workers := 0

theorem ofRequest_siblingRequest : ofRequest siblingTree siblingRequest = .ok siblingJob :=
  eq_ok_of_toOption (by decide +kernel)

theorem wrotePage_generate_siblingTree :
    ofRequest siblingTree siblingRequest = .ok siblingJob ∧
      siblingJob.target.parent? = some ⟨"/R/p".toList⟩ ∧
      ∀ output, .wrotePage output ∈ (siblingJob.generate siblingTree).events →
        ∃ file ∈ (siblingJob.index siblingTree).index.files,
          file.startsWith ⟨"/R/p".toList⟩ = true ∧
            siblingJob.layout.pagePath file = .ok output := by
  obtain ⟨written, _, atFile, _⟩ := wrotePage_generate ofRequest_siblingRequest
  exact ⟨ofRequest_siblingRequest, atFile (by decide +kernel), written⟩

theorem files_siblingTree :
    (siblingJob.index siblingTree).index.files.toList =
      [⟨"/R/p/a.py".toList⟩, ⟨"/R/p/b.py".toList⟩] := by
  have found : ([siblingJob.library, siblingJob.target].flatMap
        siblingTree.findSources).filterMap FileTree.Finding.source? =
      [⟨"/R/p/a.py".toList⟩, ⟨"/R/p/b.py".toList⟩, ⟨"/R/p/b.py".toList⟩] := by
    decide +kernel
  have sources : FileTree.sourcesOf ([siblingJob.library, siblingJob.target].flatMap
        siblingTree.findSources) = [⟨"/R/p/a.py".toList⟩, ⟨"/R/p/b.py".toList⟩] := by
    rw [FileTree.sourcesOf, found]
    cbv
  unfold Job.index Indexing.build
  dsimp only
  rw [sources]
  decide +kernel

/-- The tree in which the pages are made, its output directory being there. -/
def siblingOutput : FileTree :=
  match ensureOutput siblingJob.output siblingTree with
  | .ok _ after | .error _ after => after

def siblingBatch : Batch := siblingJob.batch (siblingJob.index siblingTree).index

theorem pagePath_sibling :
    siblingBatch.layout.pagePath ⟨"/R/p/a.py".toList⟩ = .ok ⟨"/R/out/a.py.html".toList⟩ := by
  have paged : siblingJob.layout.pagePath ⟨"/R/p/a.py".toList⟩ =
      .ok ⟨"/R/out/a.py.html".toList⟩ := by
    cbv
  exact paged

/-- The page of the first module is made, though only the second was asked for. -/
theorem publish_sibling :
    (siblingBatch.publish ⟨"/R/p/a.py".toList⟩ siblingOutput).1.output? =
      some ⟨"/R/out/a.py.html".toList⟩ := by
  have read : siblingOutput.readText ⟨"/R/p/a.py".toList⟩ = .ok [] :=
    eq_ok_of_toOption (by decide +kernel)
  have composed : Composition.compose [] [] .linksInnermost =
      .ok { runs := #[], spans := [], trailing := [] } := by
    cbv
  have unannotated :
      (siblingBatch.annotate ⟨"/R/p/a.py".toList⟩ []).flatMap Prod.snd = [] :=
    flatMap_annotate siblingJob _ _ []
  have nesting : siblingBatch.nesting = .linksInnermost := rfl
  have rendered : (siblingBatch.renderFile siblingOutput ⟨"/R/p/a.py".toList⟩).page =
      siblingBatch.renderRuns ⟨"/R/p/a.py".toList⟩ [] [] := by
    rw [Batch.renderFile, read, ← unannotated]
    rfl
  rw [Batch.renderRuns, nesting, composed, Except.mapError, ok_bind, pagePath_sibling, ok_bind,
    Layout.assemble_eq_ok pagePath_sibling] at rendered
  rw [Batch.publish]
  simp only [rendered]
  -- the text of the page is never looked at, so nothing is left to compute but the tree
  decide +kernel

/-- A target file does not keep the module beside it, which only the library holds, from having a
page. -/
theorem wrotePage_sibling :
    ∃ job, ofRequest siblingTree siblingRequest = .ok job ∧
      .wrotePage ⟨"/R/out/a.py.html".toList⟩ ∈ (job.generate siblingTree).events ∧
      ∀ file ∈ (job.index siblingTree).index.files, file.startsWith job.target = true →
        job.layout.pagePath file ≠ .ok ⟨"/R/out/a.py.html".toList⟩ := by
  refine ⟨siblingJob, ofRequest_siblingRequest, ?_, ?_⟩
  · obtain ⟨created, ensured⟩ : ∃ created,
        ensureOutput siblingJob.output siblingTree = .ok created siblingOutput := ⟨_, rfl⟩
    have inside : siblingBatch.inside (siblingJob.index siblingTree).index.files.toList =
        [⟨"/R/p/a.py".toList⟩, ⟨"/R/p/b.py".toList⟩] := by
      rw [files_siblingTree]
      decide +kernel
    rw [← Array.mem_toList_iff, ← mem_pagesWritten, pagesWritten_generate,
      pagesWritten_pages ensured, Batch.pagesWritten_run]
    change _ ∈ pagesWritten (siblingBatch.steps _ (siblingBatch.inside _)).1.events.toList
    rw [inside]
    exact Batch.mem_pagesWritten_steps_cons publish_sibling
  · intro file isIndexed atTarget
    rw [← Array.mem_toList_iff, files_siblingTree] at isIndexed
    simp only [List.mem_cons, List.not_mem_nil, or_false] at isIndexed
    rcases isIndexed with rfl | rfl
    · exact absurd atTarget (by decide +kernel)
    · have paged : siblingJob.layout.pagePath ⟨"/R/p/b.py".toList⟩ =
          .ok ⟨"/R/out/b.py.html".toList⟩ := by
        cbv
      rw [paged]
      exact fun same => absurd (Except.ok.inj same) (by decide +kernel)

end Job

end Hyperlisting
