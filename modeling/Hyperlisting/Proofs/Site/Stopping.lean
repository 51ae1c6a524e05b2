import Hyperlisting.Proofs.Site.Turns

/-! How a batch ends. The first file that cannot be rendered, for another reason than trouble with
the file alone, stops it: the files before it are published as if there were no others, and the tree
is left as they leave it. Without such a file every listed file is counted. -/

namespace Hyperlisting

open FileTree

namespace Batch

variable {batch : Batch} {tree : FileTree} {file : Path} {files earlier later : List Path}
  {failure : Failure} {location : Location}

/-- None of some files stops the batch at its turn. -/
def GoesOn (batch : Batch) (tree : FileTree) (files : List Path) : Prop :=
  ∀ turn ∈ batch.turns tree files, ∀ failure, ¬ batch.Fatal turn.2 turn.1 failure

theorem steps_append (state : State) (goesOn : batch.GoesOn state.tree earlier)
    (later : List Path) :
    batch.steps state (earlier ++ later) = batch.steps (batch.steps state earlier).1 later ∧
      (batch.steps state earlier).2 = none ∧
      (batch.steps state earlier).1.tree = batch.publishAll state.tree earlier ∧
      (batch.steps state earlier).1.written + (batch.steps state earlier).1.failed =
        state.written + state.failed + earlier.length := by
  induction earlier generalizing state with
  | nil => exact ⟨rfl, rfl, rfl, rfl⟩
  | cons file earlier ih =>
    obtain ⟨first, rest⟩ := List.forall_mem_cons.mp goesOn
    obtain ⟨onward, left, counted⟩ := step_of_not_fatal first
    rw [← left] at rest
    obtain ⟨split, through, tree, total⟩ := ih _ rest
    rw [List.cons_append, steps_of_step onward, steps_of_step onward]
    refine ⟨split, through, ?_, ?_⟩
    · rw [tree, left, publishAll]
    · rw [total, counted, List.length_cons]
      omega

/-- Of some files none stops the batch, or there is a first one that does. -/
theorem goesOn_or_exists_first (batch : Batch) (tree : FileTree) (files : List Path) :
    batch.GoesOn tree files ∨ ∃ earlier file later failure, files = earlier ++ file :: later ∧
      batch.GoesOn tree earlier ∧ batch.Fatal (batch.publishAll tree earlier) file failure := by
  induction files generalizing tree with
  | nil => exact .inl fun _ none => absurd none List.not_mem_nil
  | cons file files ih =>
    by_cases fatal : ∃ failure, batch.Fatal tree file failure
    · obtain ⟨failure, fatal⟩ := fatal
      exact .inr ⟨[], file, files, failure, rfl, fun _ none => absurd none List.not_mem_nil, fatal⟩
    · have first : ∀ failure, ¬ batch.Fatal tree file failure := not_exists.mp fatal
      rcases ih (batch.publish file tree).2 with
        goesOn | ⟨earlier, next, later, failure, rfl, goesOn, stops⟩
      · exact .inl (List.forall_mem_cons.mpr ⟨first, goesOn⟩)
      · exact .inr ⟨file :: earlier, next, later, failure, rfl,
          List.forall_mem_cons.mpr ⟨first, goesOn⟩, stops⟩

theorem run_of_goesOn (goesOn : batch.GoesOn tree (batch.inside files)) :
    (batch.run files tree).tree = batch.publishAll tree (batch.inside files) ∧
      ∃ report, (batch.run files tree).result = .ok report ∧
        report.written + report.failed = (batch.inside files).length ∧
        report.written + report.failed + report.outsideRoot = files.length := by
  obtain ⟨-, through, left, counted⟩ :=
    steps_append (batch.starting files tree) goesOn []
  have counted : (batch.steps (batch.starting files tree) (batch.inside files)).1.written +
      (batch.steps (batch.starting files tree) (batch.inside files)).1.failed =
        (batch.inside files).length := by
    rw [counted]
    simp [starting]
  rw [run_of_steps (Prod.ext rfl through)]
  refine ⟨left, _, rfl, counted, ?_⟩
  have listed := List.length_eq_length_filter_add (l := files) (·.startsWith batch.layout.root)
  dsimp only
  rw [counted, listed, inside]

theorem run_of_fatal (listed : batch.inside files = earlier ++ file :: later)
    (goesOn : batch.GoesOn tree earlier)
    (fatal : batch.Fatal (batch.publishAll tree earlier) file failure) :
    (batch.run files tree).result = .error failure ∧
      (batch.run files tree).tree = batch.publishAll tree earlier := by
  obtain ⟨split, -, left, -⟩ :=
    steps_append (batch.starting files tree) goesOn (file :: later)
  let state := (batch.steps (batch.starting files tree) earlier).1
  have fatal : batch.Fatal state.tree file failure := left ▸ fatal
  obtain ⟨stops, kept⟩ := step_of_fatal fatal
  rcases batch.steps_cons state file later with ⟨ends, -⟩ | ⟨-, onward⟩
  · have ending : batch.step state file = ((batch.step state file).1, some failure) :=
      stops ▸ rfl
    rw [run_eq, listed, split, ends, ending]
    dsimp only
    exact ⟨rfl, kept.trans left⟩
  · rw [stops] at onward
    cases onward

/-- A file stops a batch, and what is left is what the files before it leave. -/
structure Stopped (batch : Batch) (files : List Path) (tree : FileTree) (failure : Failure)
    (earlier : List Path) (file : Path) (later : List Path) : Prop where
  listed : batch.inside files = earlier ++ file :: later
  fatal : batch.Fatal (batch.publishAll tree earlier) file failure
  first : batch.GoesOn tree earlier
  /-- The earlier files are published as if there were no others. -/
  alone : (batch.run files tree).tree = (batch.run earlier tree).tree
  counted : ∃ report, (batch.run earlier tree).result = .ok report ∧
    report.written + report.failed = earlier.length
  /-- Apart from where the page of an earlier file lands, directories are made at most. -/
  elsewhere : ∀ location, (∀ turn ∈ batch.turns tree earlier, ¬ batch.LandsAt location turn) →
    (batch.run files tree).tree.get? location = tree.get? location ∨
      tree.get? location = none ∧
        (batch.run files tree).tree.get? location = some .directory

theorem inside_eq_of_listed (listed : batch.inside files = earlier ++ later) :
    batch.inside earlier = earlier := by
  refine List.filter_eq_self.mpr fun file mem => ?_
  have mem : file ∈ batch.inside files := listed ▸ List.mem_append_left _ mem
  exact (List.mem_filter.mp mem).2

theorem stopped_of_fatal (listed : batch.inside files = earlier ++ file :: later)
    (goesOn : batch.GoesOn tree earlier)
    (fatal : batch.Fatal (batch.publishAll tree earlier) file failure) :
    batch.Stopped files tree failure earlier file later := by
  have inside := inside_eq_of_listed listed
  obtain ⟨-, left⟩ := run_of_fatal listed goesOn fatal
  have goesOnAlone : batch.GoesOn tree (batch.inside earlier) := inside.symm ▸ goesOn
  obtain ⟨alone, report, counted, total, -⟩ := run_of_goesOn goesOnAlone
  rw [inside] at alone total
  exact ⟨listed, fatal, goesOn, left.trans alone.symm, ⟨report, counted, total⟩,
    fun location elsewhere => left ▸ get?_publishAll elsewhere⟩

theorem exists_failure_iff : (∃ failure, (batch.run files tree).result = .error failure) ↔
    ∃ turn ∈ batch.turns tree (batch.inside files), ∃ failure,
      batch.Fatal turn.2 turn.1 failure := by
  constructor
  · rintro ⟨failure, stopped⟩
    rcases batch.goesOn_or_exists_first tree (batch.inside files) with
      goesOn | ⟨earlier, file, later, failure, listed, -, fatal⟩
    · obtain ⟨-, report, done, -⟩ := run_of_goesOn goesOn
      cases done.symm.trans stopped
    · have mem := batch.mem_turns tree earlier file later
      rw [← listed] at mem
      exact ⟨_, mem, failure, fatal⟩
  · rintro ⟨turn, mem, failure, fatal⟩
    rcases batch.goesOn_or_exists_first tree (batch.inside files) with
      goesOn | ⟨earlier, file, later, failure, listed, first, fatal⟩
    · exact absurd fatal (goesOn turn mem failure)
    · exact ⟨failure, (run_of_fatal listed first fatal).1⟩

theorem exists_stopped (stopped : (batch.run files tree).result = .error failure) :
    ∃ earlier file later, batch.Stopped files tree failure earlier file later := by
  rcases batch.goesOn_or_exists_first tree (batch.inside files) with
    goesOn | ⟨earlier, file, later, other, listed, first, fatal⟩
  · obtain ⟨-, report, done, -⟩ := run_of_goesOn goesOn
    cases done.symm.trans stopped
  · obtain ⟨result, -⟩ := run_of_fatal listed first fatal
    obtain rfl := Except.error.inj (result.symm.trans stopped)
    exact ⟨earlier, file, later, stopped_of_fatal listed first fatal⟩

/-- Where no page lands on the way of a listed file, a file stops the batch at its turn if it would
have stopped it at first. -/
theorem fatal_turn_iff (sound : tree.Sound) (canonical : ∀ file ∈ files, tree.Canonical file)
    (elsewhere : ∀ file ∈ files, ∀ location ∈ tree.route file, ∀ turn ∈ batch.turns tree files,
      ¬ batch.LandsAt location turn) (mem : turn ∈ batch.turns tree files) :
    batch.Fatal turn.2 turn.1 failure ↔ batch.Fatal tree turn.1 failure := by
  obtain ⟨file, found⟩ := turn
  obtain ⟨earlier, later, rfl, rfl⟩ := exists_of_mem_turns mem
  have listed : file ∈ earlier ++ file :: later := by simp
  refine fatal_publishAll_iff (canonical file listed) sound fun location within turn before => ?_
  refine elsewhere file listed location within turn ?_
  rw [turns_append]
  exact List.mem_append_left _ before

/-- A batch stops at the first file that cannot be rendered for another reason than trouble with the
file alone, and leaves what the files before it leave; else it counts every file. Where no page
lands on the way of a listed file, a file stops the batch at its turn if it would stop it at first.
-/
theorem run_stops (batch : Batch) (files : List Path) (tree : FileTree) :
    ((∃ failure, (batch.run files tree).result = .error failure) ↔
      ∃ turn ∈ batch.turns tree (batch.inside files), ∃ failure,
        batch.Fatal turn.2 turn.1 failure) ∧
    (∀ failure, (batch.run files tree).result = .error failure →
      ∃ earlier file later, batch.Stopped files tree failure earlier file later) ∧
    (batch.GoesOn tree (batch.inside files) →
      ∃ report, (batch.run files tree).result = .ok report ∧
        report.written + report.failed + report.outsideRoot = files.length) ∧
    (tree.Sound → (∀ file ∈ batch.inside files, tree.Canonical file) →
      (∀ file ∈ batch.inside files, ∀ location ∈ tree.route file,
        ∀ turn ∈ batch.turns tree (batch.inside files), ¬ batch.LandsAt location turn) →
      ∀ turn ∈ batch.turns tree (batch.inside files), ∀ failure,
        batch.Fatal turn.2 turn.1 failure ↔ batch.Fatal tree turn.1 failure) := by
  refine ⟨exists_failure_iff, fun failure => exists_stopped, fun goesOn => ?_,
    fun sound canonical elsewhere turn mem failure => fatal_turn_iff sound canonical elsewhere mem⟩
  obtain ⟨-, report, done, -, total⟩ := run_of_goesOn goesOn
  exact ⟨report, done, total⟩

/-- A directory of pages that is a link to the other one. -/
def doubledTree : FileTree :=
  .ofEntries ["R".toList] [(["R".toList], Entry.directory),
    (["R".toList, "p".toList], Entry.directory),
    (["R".toList, "p".toList, "d1".toList], Entry.directory),
    (["R".toList, "p".toList, "d1".toList, "x.py".toList], Entry.file "x\n".toUTF8),
    (["R".toList, "p".toList, "d2".toList], Entry.directory),
    (["R".toList, "p".toList, "d2".toList, "x.py".toList], Entry.file ByteArray.empty),
    (["R".toList, "out".toList], Entry.directory),
    (["R".toList, "out".toList, "d1".toList], Entry.directory),
    (["R".toList, "out".toList, "d2".toList], Entry.link ⟨"/R/out/d1".toList⟩)]

/-- The first byte of a file has a style, so an empty file has a malformed run. -/
def doubledBatch : Batch where
  layout := ⟨⟨"/R/p".toList⟩, ⟨"/R/out".toList⟩⟩
  producers := [⟨"fixed".toList, fun _ _ => [⟨0, 1, .style "k".toList, none⟩]⟩]
  outline _ := []
  nesting := .linksInnermost

def doubledFiles : List Path := [⟨"/R/p/d1/x.py".toList⟩, ⟨"/R/p/d2/x.py".toList⟩]

/-- The files with the paths of their pages. -/
def doubledPages : List (Path × Path) :=
  [(⟨"/R/p/d1/x.py".toList⟩, ⟨"/R/out/d1/x.py.html".toList⟩),
    (⟨"/R/p/d2/x.py".toList⟩, ⟨"/R/out/d2/x.py.html".toList⟩)]

def doubledFailure : Failure := .run ⟨"/R/p/d2/x.py".toList⟩ (.outOfBounds 1 0)

/-- Where the page of the first file lands. -/
def doubledPlace : Location := ["R".toList, "out".toList, "d1".toList, "x.py.html".toList]

def doubledLocations : List Location :=
  [["R".toList, "p".toList, "d1".toList, "x.py".toList],
    ["R".toList, "p".toList, "d2".toList, "x.py".toList]]

theorem files_doubled : doubledTree.Sound ∧ doubledBatch.inside doubledFiles = doubledFiles ∧
    (doubledFiles = doubledLocations.map pathOf ∧ ∀ location ∈ doubledLocations,
      ∀ name ∈ location, Path.Component.ofPiece? name = some (.name name) ∧ Path.separator ∉ name) ∧
    ∀ file ∈ doubledFiles, doubledPlace ∉ doubledTree.route file ∧
      ∀ place ∈ doubledTree.route file, place ∉ doubledTree.links := by
  decide +kernel

theorem canonical_doubled : ∀ file ∈ doubledFiles, doubledTree.Canonical file := by
  obtain ⟨-, -, ⟨located, names⟩, apart⟩ := files_doubled
  intro file mem
  have unlinked : Unlinked doubledTree (doubledTree.route file) := fun place within =>
    ne_link_of_not_mem_links ((apart file mem).2 place within)
  rw [located] at mem
  obtain ⟨location, known, rfl⟩ := List.mem_map.mp mem
  exact ⟨location, rfl, fun name within =>
    ⟨(names location known name within).1, (names location known name within).2⟩, unlinked⟩

theorem pagePath_doubled : ∀ page ∈ doubledPages,
    doubledBatch.layout.pagePath page.1 = .ok page.2 := by
  have first : doubledBatch.layout.pagePath ⟨"/R/p/d1/x.py".toList⟩ =
      .ok ⟨"/R/out/d1/x.py.html".toList⟩ := by
    cbv
  have second : doubledBatch.layout.pagePath ⟨"/R/p/d2/x.py".toList⟩ =
      .ok ⟨"/R/out/d2/x.py.html".toList⟩ := by
    cbv
  simp only [doubledPages, List.forall_mem_cons]
  exact ⟨first, second, fun _ none => absurd none List.not_mem_nil⟩

theorem renderFile_doubled : ∃ html,
    (doubledBatch.renderFile doubledTree ⟨"/R/p/d1/x.py".toList⟩).page =
      .ok ⟨⟨"/R/p/d1/x.py".toList⟩, ⟨"/R/out/d1/x.py.html".toList⟩, html⟩ := by
  have read : doubledTree.readText ⟨"/R/p/d1/x.py".toList⟩ = .ok "x\n".toList := by cbv
  obtain ⟨composition, composed⟩ : ∃ composition,
      Composition.compose "x\n".toList [⟨0, 1, .style "k".toList, none⟩] .linksInnermost =
        .ok composition :=
    ⟨_, by cbv⟩
  exact exists_page_of_compose read composed (pagePath_doubled _ List.mem_cons_self)

/-- The page of the first file is found by the path of the other page as well. -/
theorem publish_doubled :
    (doubledBatch.publish ⟨"/R/p/d1/x.py".toList⟩ doubledTree).2.readText
        ⟨"/R/p/d2/x.py".toList⟩ = .ok [] ∧
      (doubledBatch.publish ⟨"/R/p/d1/x.py".toList⟩ doubledTree).2.isFile
        ⟨"/R/out/d2/x.py.html".toList⟩ = true := by
  obtain ⟨html, rendered⟩ := renderFile_doubled
  obtain ⟨after, writes, read, found⟩ : ∃ after,
      (Page.mk ⟨"/R/p/d1/x.py".toList⟩ ⟨"/R/out/d1/x.py.html".toList⟩ html).write doubledTree =
        .ok () after ∧
      after.readText ⟨"/R/p/d2/x.py".toList⟩ = .ok [] ∧
      after.isFile ⟨"/R/out/d2/x.py.html".toList⟩ = true :=
    ⟨_, by cbv, by cbv, by cbv⟩
  rw [(publish_of_write rendered writes).2]
  exact ⟨read, found⟩

theorem fatal_doubled {tree : FileTree} (read : tree.readText ⟨"/R/p/d2/x.py".toList⟩ = .ok []) :
    doubledBatch.Fatal tree ⟨"/R/p/d2/x.py".toList⟩ doubledFailure :=
  fatal_iff.mpr ⟨[], read, .inl ⟨_, rfl, by cbv⟩⟩

theorem goesOn_doubled : doubledBatch.GoesOn doubledTree [⟨"/R/p/d1/x.py".toList⟩] := by
  obtain ⟨html, rendered⟩ := renderFile_doubled
  intro turn mem failure fatal
  obtain rfl := List.mem_singleton.mp mem
  cases rendered.symm.trans fatal.1

theorem result_doubled :
    (doubledBatch.run doubledFiles doubledTree).result = .error doubledFailure ∧
      (doubledBatch.run doubledFiles doubledTree).tree =
        (doubledBatch.publish ⟨"/R/p/d1/x.py".toList⟩ doubledTree).2 := by
  obtain ⟨-, inside, -⟩ := files_doubled
  exact run_of_fatal inside goesOn_doubled (fatal_doubled publish_doubled.1)

theorem eq_of_landsAt_doubled (mem : turn ∈ doubledBatch.turns doubledTree doubledFiles)
    (lands : doubledBatch.LandsAt location turn) : location = doubledPlace := by
  obtain ⟨html, rendered⟩ := renderFile_doubled
  obtain ⟨page, made, after, slot, -, put, rfl⟩ := lands
  rcases List.mem_cons.mp mem with rfl | mem
  · obtain rfl := Except.ok.inj (rendered.symm.trans made)
    have found : ((Page.mk ⟨"/R/p/d1/x.py".toList⟩ ⟨"/R/out/d1/x.py.html".toList⟩ html).prepared
        doubledTree).slot? ⟨"/R/out/d1/x.py.html".toList⟩ =
          .ok (some ⟨["R".toList, "out".toList, "d1".toList], "x.py.html".toList, false⟩) := by
      cbv
    obtain rfl := Option.some.inj (Except.ok.inj (found.symm.trans put.replaced.found))
    rfl
  · obtain rfl := List.mem_singleton.mp mem
    cases (fatal_doubled publish_doubled.1).1.symm.trans made

theorem run_stops_doubled :
    (doubledBatch.run doubledFiles doubledTree).result = .error doubledFailure ∧
      (∃ earlier file later,
        doubledBatch.Stopped doubledFiles doubledTree doubledFailure earlier file later) ∧
      (∃ report, (doubledBatch.run [⟨"/R/p/d1/x.py".toList⟩, ⟨"/R/x.py".toList⟩]
        doubledTree).result = .ok report ∧
          report.written + report.failed + report.outsideRoot = 2) ∧
      doubledBatch.Fatal doubledTree ⟨"/R/p/d2/x.py".toList⟩ doubledFailure := by
  obtain ⟨sound, inside, -, apart⟩ := files_doubled
  obtain ⟨-, stopped, -, same⟩ := run_stops doubledBatch doubledFiles doubledTree
  obtain ⟨-, -, counted, -⟩ := run_stops doubledBatch
    [⟨"/R/p/d1/x.py".toList⟩, ⟨"/R/x.py".toList⟩] doubledTree
  obtain ⟨result, -⟩ := result_doubled
  rw [inside] at same
  have last := doubledBatch.mem_turns doubledTree [⟨"/R/p/d1/x.py".toList⟩]
    ⟨"/R/p/d2/x.py".toList⟩ []
  have elsewhere : ∀ file ∈ doubledFiles, ∀ location ∈ doubledTree.route file,
      ∀ turn ∈ doubledBatch.turns doubledTree doubledFiles,
        ¬ doubledBatch.LandsAt location turn := by
    intro file mem location within turn found lands
    obtain rfl := eq_of_landsAt_doubled found lands
    exact (apart file mem).1 within
  exact ⟨result, stopped _ result, counted goesOn_doubled,
    (same sound canonical_doubled elsewhere _ last _).mp (fatal_doubled publish_doubled.1)⟩

/-- Paths of pages that differ do not keep a batch off the page of the file that stops it: where one
of them goes through a link, both can lead to one place. -/
theorem not_untouched_doubled :
    doubledPages.map Prod.fst = doubledFiles ∧
      (∀ page ∈ doubledPages, doubledBatch.layout.pagePath page.1 = .ok page.2) ∧
      (doubledPages.map Prod.snd).Nodup ∧ (∀ page ∈ doubledPages, page.2 ∉ doubledFiles) ∧
      (doubledBatch.run doubledFiles doubledTree).result =
        .error (.run ⟨"/R/p/d2/x.py".toList⟩ (.outOfBounds 1 0)) ∧
      doubledTree.isFile ⟨"/R/out/d2/x.py.html".toList⟩ = false ∧
      (doubledBatch.run doubledFiles doubledTree).tree.isFile
        ⟨"/R/out/d2/x.py.html".toList⟩ = true := by
  obtain ⟨result, left⟩ := result_doubled
  refine ⟨rfl, pagePath_doubled, by decide, by decide, result, by cbv, ?_⟩
  rw [left]
  exact publish_doubled.2

end Batch

end Hyperlisting
