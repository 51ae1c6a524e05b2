import Hyperlisting.Proofs.Site.Publishing

/-! Files whose pages keep clear of each other, and the tree and counts that a batch of such files
comes to, told from the tree that it starts from. -/

namespace Hyperlisting

open FileTree Footprint

namespace Batch

variable {batch : Batch} {files done : List Path} {origin tree after : FileTree}
  {file other output : Path} {name : OsText} {place : Location} {page : Page}

/-- Listed files whose pages keep clear of each other, of the files and of links: where a path leads
is told by its steps. -/
structure Independent (batch : Batch) (files : List Path) (origin : FileTree) : Prop where
  sound : origin.Sound
  distinct : files.Nodup
  canonical : ∀ file ∈ files, origin.Canonical file
  /-- No page lies on the way of another one. -/
  pages : ∀ file ∈ files, ∀ other ∈ files, file ≠ other → ∀ output otherOutput,
    batch.layout.pagePath file = .ok output → batch.layout.pagePath other = .ok otherOutput →
      origin.destination output ∉ origin.route otherOutput
  /-- No page lies on the way of a listed file. -/
  sources : ∀ file ∈ files, ∀ other ∈ files, ∀ output,
    batch.layout.pagePath file = .ok output → origin.destination output ∉ origin.route other
  /-- There is no link on the way of the output directory, nor at or below its place. -/
  unlinked : Unlinked origin (origin.route batch.layout.output)
  unlinkedBelow : ∀ place, origin.destination batch.layout.output <+: place →
    ∀ target, origin.get? place ≠ some (.link target)
  recoverable : ∀ file ∈ batch.inside files, ∀ failure,
    (batch.renderFile origin file).page = .error failure → failure.isRecoverable = true

theorem mem_of_mem_inside (mem : file ∈ batch.inside files) : file ∈ files :=
  List.mem_of_mem_filter mem

/-- The tree after some files were published: their pages are in their places as far as the first
tree admits them, the directories that were missing are there, and all else is as it was. -/
structure Settled (batch : Batch) (origin : FileTree) (done : List Path) (tree : FileTree) :
    Prop where
  current : tree.current = origin.current
  room : tree.room = origin.room
  sound : tree.Sound
  written : ∀ file ∈ done, ∀ page, (batch.renderFile origin file).page = .ok page →
    Admits origin page.output (String.ofList page.html).toUTF8 →
      tree.get? (origin.destination page.output) = some (.file (String.ofList page.html).toUTF8)
  made : ∀ file ∈ done, ∀ page, (batch.renderFile origin file).page = .ok page →
    ∀ place ∈ wantedAbove origin page.output, tree.get? place = some .directory
  elsewhere : ∀ place, (∀ file ∈ done, ¬ batch.Touches origin file place) →
    tree.get? place = origin.get? place

theorem Settled.none (sound : origin.Sound) : batch.Settled origin [] origin where
  current := rfl
  room := rfl
  sound := sound
  written _ mem := absurd mem List.not_mem_nil
  made _ mem := absurd mem List.not_mem_nil
  elsewhere _ _ := rfl

/-- What some files come to is the same whichever way it was reached. -/
theorem Settled.get?_eq {another : FileTree} (settled : batch.Settled origin done tree)
    (settled' : batch.Settled origin done another) (place : Location) :
    tree.get? place = another.get? place := by
  by_cases touched : ∃ file ∈ done, batch.Touches origin file place
  · obtain ⟨file, mem, page, rendered, ⟨admits, rfl⟩ | wanted⟩ := touched
    · rw [settled.written file mem page rendered admits,
        settled'.written file mem page rendered admits]
    · rw [settled.made file mem page rendered place wanted,
        settled'.made file mem page rendered place wanted]
  · have untouched : ∀ file ∈ done, ¬ batch.Touches origin file place := fun file mem touches =>
      touched ⟨file, mem, touches⟩
    rw [settled.elsewhere place untouched, settled'.elsewhere place untouched]

/-- The page of a file is written if the file is published before any other. -/
def succeeds (batch : Batch) (origin : FileTree) (file : Path) : Bool :=
  (batch.publish file origin).1.output?.isSome

theorem publish_of_write {after : FileTree}
    (rendered : (batch.renderFile tree file).page = .ok page)
    (writes : page.write tree = .ok () after) :
    (batch.publish file tree).1.page = .ok page ∧ (batch.publish file tree).2 = after := by
  rw [publish]
  simp only [rendered, writes, and_self]

theorem publish_of_unwritten {after : FileTree} {cause : SystemError}
    (rendered : (batch.renderFile tree file).page = .ok page)
    (fails : page.write tree = .error cause after) :
    (batch.publish file tree).1.page = .error (.write page.output cause) ∧
      (batch.publish file tree).2 = after := by
  rw [publish]
  simp only [rendered, fails, and_self]

theorem step_of_ok {state : State} (made : (batch.publish file state.tree).1.page = .ok page) :
    (batch.step state file).2 = none ∧
      (batch.step state file).1.tree = (batch.publish file state.tree).2 ∧
      (batch.step state file).1.written = state.written + 1 ∧
      (batch.step state file).1.failed = state.failed := by
  rw [step]
  dsimp only
  rw [made]
  exact ⟨rfl, rfl, rfl, rfl⟩

theorem step_of_error {state : State} {failure : Failure}
    (made : (batch.publish file state.tree).1.page = .error failure)
    (recoverable : failure.isRecoverable = true) :
    (batch.step state file).2 = none ∧
      (batch.step state file).1.tree = (batch.publish file state.tree).2 ∧
      (batch.step state file).1.written = state.written ∧
      (batch.step state file).1.failed = state.failed + 1 := by
  rw [step]
  dsimp only
  rw [made]
  dsimp only
  rw [if_pos recoverable]
  exact ⟨rfl, rfl, rfl, rfl⟩

/-- A step counts its file as written or as failed. -/
theorem step_of_verdict {state : State} {succeeds : Bool}
    (verdict : Verdict (succeeds = true) (batch.publish file state.tree).1.page) :
    (batch.step state file).2 = none ∧
      (batch.step state file).1.tree = (batch.publish file state.tree).2 ∧
      (batch.step state file).1.written = state.written + (if succeeds then 1 else 0) ∧
      (batch.step state file).1.failed = state.failed + if !succeeds then 1 else 0 := by
  cases made : (batch.publish file state.tree).1.page with
  | ok page =>
    rw [made] at verdict
    obtain rfl : succeeds = true := verdict
    exact step_of_ok made
  | error failure =>
    rw [made] at verdict
    obtain ⟨recoverable, fails⟩ := verdict
    obtain rfl := Bool.eq_false_of_not_eq_true fails
    exact step_of_error made recoverable

theorem succeeds_iff_of_verdict {writes : Prop}
    (verdict : Verdict writes (batch.publish file origin).1.page) :
    batch.succeeds origin file = true ↔ writes := by
  unfold succeeds Rendering.output?
  cases made : (batch.publish file origin).1.page with
  | ok page =>
    rw [made] at verdict
    exact iff_of_true rfl verdict
  | error failure =>
    rw [made] at verdict
    exact iff_of_false Bool.false_ne_true verdict.2

theorem steps_of_step {state : State} {todo : List Path}
    (goesOn : (batch.step state file).2 = none) :
    batch.steps state (file :: todo) = batch.steps (batch.step state file).1 todo := by
  rcases batch.steps_cons state file todo with ⟨-, stops⟩ | ⟨onward, -⟩
  · exact absurd goesOn stops
  · exact onward

/-- Two files one after the other, the first of which comes to a page. -/
theorem result_of_pair {first second : Path} {succeeds : Bool}
    (inside : batch.inside files = [first, second])
    (rendered : (batch.renderFile tree first).page = .ok page)
    (writes : page.write tree = .ok () after)
    (verdict : Verdict (succeeds = true) (batch.publish second after).1.page) :
    (batch.run files tree).result = .ok ⟨1 + if succeeds then 1 else 0, if !succeeds then 1 else 0,
      (files.filter (!·.startsWith batch.layout.root)).length⟩ := by
  let start := batch.starting files tree
  have made : (batch.publish first start.tree).1.page = _ ∧ _ := publish_of_write rendered writes
  obtain ⟨goesOn, left, written, failed⟩ := step_of_ok made.1
  rw [made.2] at left
  rw [← left] at verdict
  obtain ⟨ends, -, allWritten, allFailed⟩ := step_of_verdict verdict
  have through : batch.steps start (batch.inside files) =
      ((batch.step (batch.step start first).1 second).1, none) := by
    rw [inside]
    exact (steps_of_step goesOn).trans (steps_of_step ends)
  rw [run_of_steps through]
  dsimp only
  rw [allWritten, allFailed, written, failed]
  simp [start, starting]

section Independent

variable (independent : batch.Independent files origin)

include independent

/-- The way to the directory of a page has no link. -/
theorem Independent.unlinked_way (mem : file ∈ files)
    (paged : batch.layout.pagePath file = .ok output) :
    Unlinked origin (passed (origin.startOfPath output) output.steps.dropLast) := by
  obtain ⟨location, rfl, names, unlinked⟩ := independent.canonical file mem
  obtain ⟨relative, name, found, named, rfl⟩ := Layout.pagePath_cases paged
  have below := Path.components_below? found
  rw [components_pathOf names] at below
  have fits := Layout.isFileName_append_pageSuffix (Path.isFileName_of_fileName? named)
  cases absolute : relative.isAbsolute with
  | false =>
    obtain ⟨sameStart, last, -, steps⟩ := Layout.steps_pagePath found absolute paged
    obtain ⟨between, -, same⟩ := names_of_below? names found absolute
    rw [steps, startOfPath_congr sameStart, ← List.append_assoc, List.dropLast_concat, passed_append,
      same, ← List.map_dropLast]
    intro place mem
    rcases List.mem_append.mp mem with above | below
    · exact independent.unlinked place above
    · obtain ⟨first, rest, rfl, -⟩ := mem_passed_names below
      exact independent.unlinkedBelow _ ⟨_, rfl⟩
  | true =>
    -- Below an empty root, the page of an absolute path lies next to its file.
    have empty : batch.layout.root.components = [] := by
      by_contra nonempty
      rw [Path.isAbsolute_below? found nonempty] at absolute
      cases absolute
    rw [empty, List.length_nil, List.drop_zero, Path.components_of_isAbsolute absolute] at below
    have steps : relative.steps = (pathOf location).steps := by
      rw [steps_pathOf names]
      exact (List.cons.inj below).2
    have joined : batch.layout.output.join relative = relative := by
      rw [Path.join, if_pos absolute]
    have absolutePage : (relative.withFileName (name ++ Layout.pageSuffix)).isAbsolute =
        (pathOf location).isAbsolute := by
      rw [Path.isAbsolute_withFileName named fits, absolute, isAbsolute_pathOf]
    rw [joined, startOfPath_congr absolutePage, Path.steps_withFileName named fits,
      List.dropLast_concat, steps]
    exact fun place mem => unlinked place (passed_dropLast_subset origin (pathOf location) mem)

/-- No page lies where another worker looks. -/
theorem Independent.not_mem_area (mem : file ∈ files) (otherMem : other ∈ files)
    (different : file ≠ other) (rendered : (batch.renderFile origin file).page = .ok page) :
    origin.destination page.output ∉ (batch.footprint origin name other).area := by
  have paged := pagePath_of_renderFile rendered
  intro within
  rcases mem_area within with reads | ⟨otherPage, otherRendered, writes⟩
  · exact independent.sources file mem other otherMem _ paged reads
  · exact independent.pages file mem other otherMem different _ _ paged
      (pagePath_of_renderFile otherRendered) (passed_dropLast_subset _ _ writes)

/-- A worker that starts after others have been through finds what it would have found at first. -/
theorem Independent.outgrown (mem : file ∈ files) (settled : batch.Settled origin done tree)
    (todo : file ∉ done) (subset : done ⊆ files) :
    Outgrown origin tree (batch.footprint origin name file).area where
  sound := settled.sound
  current := settled.current
  grown place within := by
    by_cases touched : ∃ other ∈ done, batch.Touches origin other place
    · obtain ⟨other, otherMem, page, rendered, ⟨-, rfl⟩ | wanted⟩ := touched
      · have different : other ≠ file := by
          rintro rfl
          exact todo otherMem
        exact absurd within (independent.not_mem_area (subset otherMem) mem different rendered)
      · exact .inr ⟨get?_of_mem_missing (wantedAbove_subset wanted),
          settled.made other otherMem page rendered place wanted⟩
    · exact .inl (settled.elsewhere place fun other otherMem touches =>
        touched ⟨other, otherMem, touches⟩)
  unlinked place within := by
    rcases mem_area within with reads | ⟨page, rendered, writes⟩
    · obtain ⟨_, _, _, unlinked⟩ := independent.canonical file mem
      exact unlinked place reads
    · exact independent.unlinked_way mem (pagePath_of_renderFile rendered) place writes

/-- Two workers do not want anything in the same place but directories. -/
theorem Independent.not_touches (mem : file ∈ files) (otherMem : other ∈ files)
    (different : other ≠ file) (rendered : (batch.renderFile origin other).page = .ok page) :
    ¬ batch.Touches origin file (origin.destination page.output) := by
  rintro ⟨filePage, fileRendered, touched⟩
  have paged := pagePath_of_renderFile fileRendered
  refine independent.pages other otherMem file mem different _ _ (pagePath_of_renderFile rendered)
    paged ?_
  rcases touched with ⟨-, same⟩ | wanted
  · rw [same]
    exact destination_mem_route_page fileRendered
  · exact passed_dropLast_subset _ _ (missing_subset_passed _ _ _ (wantedAbove_subset wanted))

/-- Publishing one more file adds its page and its directories, and changes nothing else. -/
theorem Independent.settled_append (mem : file ∈ files) (settled : batch.Settled origin done tree)
    (todo : file ∉ done) (subset : done ⊆ files)
    (publishes : batch.Publishes origin file tree after) :
    batch.Settled origin (done ++ [file]) after where
  current := publishes.current.trans settled.current
  room := publishes.room.trans settled.room
  sound := publishes.sound
  written other otherMem page rendered admits := by
    rcases List.mem_append.mp otherMem with before | last
    · have different : other ≠ file := by
        rintro rfl
        exact todo before
      rw [publishes.elsewhere _ (independent.not_touches mem (subset before) different rendered),
        settled.written other before page rendered admits]
    · obtain rfl := List.mem_singleton.mp last
      exact publishes.written page rendered admits
  made other otherMem page rendered place wanted := by
    rcases List.mem_append.mp otherMem with before | last
    · by_cases touched : batch.Touches origin file place
      · obtain ⟨filePage, fileRendered, ⟨-, rfl⟩ | fileWanted⟩ := touched
        · have different : file ≠ other := by
            rintro rfl
            exact todo before
          exact absurd ⟨page, rendered, .inr wanted⟩
            (independent.not_touches (subset before) mem different fileRendered)
        · exact publishes.made filePage fileRendered place fileWanted
      · rw [publishes.elsewhere place touched, settled.made other before page rendered place wanted]
    · obtain rfl := List.mem_singleton.mp last
      exact publishes.made page rendered place wanted
  elsewhere place untouched := by
    rw [publishes.elsewhere place (untouched file (by simp)),
      settled.elsewhere place fun other otherMem => untouched other (List.mem_append_left _ otherMem)]

/-- Publishing one more file settles it too, and its page is written exactly if the first tree lets
it be. -/
theorem Independent.settled_publish (mem : file ∈ batch.inside files)
    (settled : batch.Settled origin done tree) (todo : file ∉ done) (subset : done ⊆ files) :
    batch.Settled origin (done ++ [file]) (batch.publish file tree).2 ∧
      Verdict (batch.Writes origin file) (batch.publish file tree).1.page := by
  have fileMem := mem_of_mem_inside mem
  have kept (page : Page) (rendered : (batch.renderFile origin file).page = .ok page) :
      tree.get? (origin.destination page.output) = origin.get? (origin.destination page.output) := by
    refine settled.elsewhere _ fun other otherMem => ?_
    have distinct : file ≠ other := by
      rintro rfl
      exact todo otherMem
    exact independent.not_touches (subset otherMem) fileMem distinct rendered
  obtain ⟨publishes, verdict⟩ := publishes_publish (independent.canonical file fileMem)
    independent.sound (fun name => independent.outgrown fileMem settled todo subset) settled.room kept
    (independent.recoverable file mem)
  exact ⟨independent.settled_append fileMem settled todo subset publishes, verdict⟩

theorem Independent.succeeds_iff (mem : file ∈ batch.inside files) :
    batch.succeeds origin file = true ↔ batch.Writes origin file :=
  succeeds_iff_of_verdict (independent.settled_publish mem (Settled.none independent.sound)
    List.not_mem_nil (List.nil_subset files)).2

theorem Independent.settled_step {state : State} (mem : file ∈ batch.inside files)
    (settled : batch.Settled origin done state.tree) (todo : file ∉ done) (subset : done ⊆ files) :
    (batch.step state file).2 = none ∧
      batch.Settled origin (done ++ [file]) (batch.step state file).1.tree ∧
      (batch.step state file).1.written =
        state.written + [file].countP (batch.succeeds origin) ∧
      (batch.step state file).1.failed =
        state.failed + [file].countP (!batch.succeeds origin ·) := by
  obtain ⟨settled, verdict⟩ := independent.settled_publish mem settled todo subset
  rw [← independent.succeeds_iff mem] at verdict
  obtain ⟨goesOn, tree, written, failed⟩ := step_of_verdict verdict
  rw [List.countP_singleton, List.countP_singleton, tree]
  exact ⟨goesOn, settled, written, failed⟩

theorem Independent.settled_steps {state : State} {todo : List Path}
    (whole : batch.inside files = done ++ todo)
    (settled : batch.Settled origin done state.tree) :
    (batch.steps state todo).2 = none ∧
      batch.Settled origin (done ++ todo) (batch.steps state todo).1.tree ∧
      (batch.steps state todo).1.written =
        state.written + todo.countP (batch.succeeds origin) ∧
      (batch.steps state todo).1.failed =
        state.failed + todo.countP (!batch.succeeds origin ·) := by
  induction todo generalizing state done with
  | nil => exact ⟨rfl, by rwa [List.append_nil], rfl, rfl⟩
  | cons file todo ih =>
    have distinct : (done ++ file :: todo).Nodup := whole ▸ independent.distinct.filter _
    have notDone : file ∉ done := fun mem =>
      (List.nodup_append.mp distinct).2.2 file mem file List.mem_cons_self rfl
    have mem : file ∈ batch.inside files := by rw [whole]; simp
    have subset : done ⊆ files := fun other mem => by
      have mem : other ∈ batch.inside files := by rw [whole]; exact List.mem_append_left _ mem
      exact mem_of_mem_inside mem
    obtain ⟨goesOn, settled, written, failed⟩ :=
      independent.settled_step mem settled notDone subset
    obtain ⟨through, settled, laterWritten, laterFailed⟩ :=
      ih (by rw [whole, List.append_assoc]; rfl) settled
    rw [steps_of_step goesOn, List.append_cons]
    refine ⟨through, settled, ?_, ?_⟩
    · rw [laterWritten, written, Nat.add_assoc, ← List.countP_append, List.singleton_append]
    · rw [laterFailed, failed, Nat.add_assoc, ← List.countP_append, List.singleton_append]

/-- A batch settles all files below the root and counts each as the first tree has it. -/
theorem Independent.settled_run :
    batch.Settled origin (batch.inside files) (batch.run files origin).tree ∧
      (batch.run files origin).result =
        .ok ⟨(batch.inside files).countP (batch.succeeds origin),
          (batch.inside files).countP (!batch.succeeds origin ·),
          (files.filter (!·.startsWith batch.layout.root)).length⟩ := by
  let start := batch.starting files origin
  have fresh : batch.Settled origin [] start.tree := .none independent.sound
  obtain ⟨through, settled, written, failed⟩ :=
    independent.settled_steps (List.nil_append _).symm fresh
  rw [List.nil_append] at settled
  rw [run_of_steps (Prod.ext rfl through)]
  refine ⟨settled, ?_⟩
  dsimp only
  rw [written, failed]
  simp [start, starting]

end Independent

end Batch
end Hyperlisting
