import Hyperlisting.Proofs.FileTree.Finding
import Hyperlisting.Proofs.Site.Recovery
import Hyperlisting.Proofs.Site.Republishing

/-! Generating a listing again. No page has the name of a source, so a second run finds the sources of
the first one and nothing else, and makes their pages in a tree that has them already. -/

namespace Hyperlisting

open FileTree Log

variable {tree after : FileTree} {layout : Layout} {file output : Path} {place location : Location}
  {name : OsText}

/-- The page of a source lies at or below the output directory where the source lies below the root. -/
theorem Layout.exists_destination (rooted : layout.root.isAbsolute = true)
    (fits : ∀ name ∈ location, Path.IsFileName name)
    (paged : layout.pagePath (pathOf location) = .ok output) :
    ∃ names name, (pathOf location).components =
        layout.root.components ++ (names ++ [name]).map .name ∧
      ∀ tree : FileTree, tree.destination output =
        tree.destination layout.output ++ (names ++ [name ++ pageSuffix]) := by
  obtain ⟨relative, _, found, -, -⟩ := pagePath_cases paged
  have rootComponents := Path.components_of_isAbsolute rooted
  have isRelative := Path.isAbsolute_below? found (by simp [rootComponents])
  obtain ⟨beneath, whole⟩ := Path.isPrefix_of_below? found
  have components := Path.components_below? found
  rw [← whole, List.drop_left] at components
  obtain ⟨rest, named, steps⟩ := names_of_below? fits found isRelative
  obtain rfl := components.symm.trans named
  obtain ⟨absolute, name, named, outputSteps⟩ := steps_pagePath found isRelative paged
  obtain ⟨front, ends⟩ := Path.exists_steps_of_fileName? named
  obtain ⟨names, last, rfl⟩ : ∃ names last, rest = names ++ [last] := by
    rcases List.eq_nil_or_concat' rest with rfl | ends
    · rw [steps] at ends
      simp at ends
    · exact ends
  have same : name = last := by
    rw [steps, List.map_append] at ends
    obtain ⟨-, last⟩ := List.append_inj' ends rfl
    exact (Path.Component.name.inj (List.singleton_inj.mp last)).symm
  subst same
  refine ⟨names, name, whole.symm, fun tree => ?_⟩
  rw [destination, startOfPath_congr absolute, outputSteps, steps, List.map_append, List.map_singleton,
    List.dropLast_concat, land_append, land_append, land_names, destination, land_cons, land_nil,
    onward, List.append_assoc]

/-- Sources at different places have their pages at different places. -/
theorem Layout.destination_ne {other : Location} {otherOutput : Path}
    (rooted : layout.root.isAbsolute = true) (fits : ∀ name ∈ location, Path.IsFileName name)
    (otherFits : ∀ name ∈ other, Path.IsFileName name) (different : location ≠ other)
    (paged : layout.pagePath (pathOf location) = .ok output)
    (otherPaged : layout.pagePath (pathOf other) = .ok otherOutput) (tree : FileTree) :
    tree.destination output ≠ tree.destination otherOutput := by
  obtain ⟨names, name, whole, lands⟩ := exists_destination rooted fits paged
  obtain ⟨otherNames, otherName, otherWhole, otherLands⟩ :=
    exists_destination rooted otherFits otherPaged
  rw [lands, otherLands]
  intro same
  obtain ⟨sameNames, sameName⟩ := List.append_inj' (List.append_cancel_left same) rfl
  have sameName := List.append_cancel_right (List.singleton_inj.mp sameName)
  rw [sameNames, sameName, ← otherWhole, components_pathOf fits, components_pathOf otherFits] at whole
  exact different (eq_of_map_name (List.cons.inj whole).2)

theorem extension?_pageName (fits : Path.IsFileName (name ++ Layout.pageSuffix)) :
    Path.extension? ⟨name ++ Layout.pageSuffix⟩ = none ∨
      Path.extension? ⟨name ++ Layout.pageSuffix⟩ = some "html".toList := by
  have steps : (Path.ofBytes (name ++ Layout.pageSuffix)).steps = [] ++ [_] :=
    Path.steps_of_isFileName fits
  have named := Path.fileName?_of_steps steps
  have ends : ((name ++ Layout.pageSuffix).reverse.takeWhile (· ≠ Path.dot)).reverse =
      "html".toList := by
    rw [List.reverse_append]
    rfl
  simp only [Path.extension?, named, Option.bind_eq_bind, Option.bind_some, ends]
  split
  · exact .inr rfl
  · exact .inl rfl

/-- No page has the name of a source. -/
theorem FileTree.IsSourcePlace.not_isPagePlace (isSource : IsSourcePlace location)
    (fits : ∀ name ∈ location, Path.IsFileName name) : ¬ IsPagePlace location := by
  obtain ⟨directory, name, rfl, extension, known, extended⟩ := isSource
  rintro ⟨other, page, same⟩
  obtain ⟨-, last⟩ := List.append_inj' same rfl
  obtain rfl := List.singleton_inj.mp last
  have pageFits : Path.IsFileName (page ++ Layout.pageSuffix) := fits _ (by simp)
  rcases extension?_pageName pageFits with none | html
  · cases extended.symm.trans none
  · obtain rfl := Option.some.inj (extended.symm.trans html)
    exact absurd known (by decide)

/-- The output directory is made at most once. -/
theorem ensureOutput_again {directory : Path} {created : List Event} (plain : tree.Plain)
    (ensured : ensureOutput directory tree = .ok created after) :
    tree.Widened after ∧ ∀ later, after.Kept later →
      ∃ created, ensureOutput directory later = .ok created later := by
  rcases ensureOutput_eq_ok_iff.mp ensured with ⟨there, -, rfl⟩ | ⟨-, -, makes⟩
  · exact ⟨.refl plain, fun later kept =>
      ⟨[], ensureOutput_eq_ok_iff.mpr (.inl ⟨kept.isDirectory plain there, rfl, rfl⟩)⟩⟩
  · obtain ⟨widened, there⟩ := makeNested_ok plain makes
    refine ⟨widened, fun later kept => ?_⟩
    cases directoryThere : later.isDirectory directory with
    | true => exact ⟨[], ensureOutput_eq_ok_iff.mpr (.inl ⟨directoryThere, rfl, rfl⟩)⟩
    | false =>
      cases above : directory.parent? with
      | some parent =>
        rw [ancestry_of_parent? above] at there
        have stays := kept.isDirectory widened.plain (there directory rfl)
        cases directoryThere.symm.trans stays
      | none =>
        -- the root, or a path that no lookup accepts
        have nothing : makeDirectories directory later = .ok () later := by
          rw [makeDirectories, ancestry_of_noParent above]
          rfl
        exact ⟨_, ensureOutput_eq_ok_iff.mpr (.inr ⟨directoryThere, rfl, nothing⟩)⟩

namespace Job

variable {job : Job} {request : Request} {path : Path}

theorem extension?_pathOf {directory : Location}
    (fits : ∀ part ∈ directory ++ [name], Path.IsFileName part) :
    (pathOf (directory ++ [name])).extension? = Path.extension? ⟨name⟩ := by
  have fit : Path.IsFileName name := fits name (by simp)
  have steps : (pathOf (directory ++ [name])).steps = directory.map .name ++ [.name name] := by
    rw [steps_pathOf fits, List.map_append, List.map_singleton]
  have nameSteps : (Path.ofBytes name).steps = [] ++ [_] := Path.steps_of_isFileName fit
  rw [Path.extension?, Path.extension?, Path.fileName?_of_steps steps,
    Path.fileName?_of_steps nameSteps]

section Accepted

variable (plain : tree.Plain) (accepted : ofRequest tree request = .ok job)
  (supported : tree.isFile job.target = true →
    ∃ extension ∈ sourceExtensions, job.target.extension? = some extension)

include plain accepted supported

/-- What a job is asked for lies at places that are directories, or have a source's name. -/
theorem exists_place_of_mem (mem : path ∈ [job.library, job.target]) :
    ∃ place, path = pathOf place ∧ (∀ name ∈ place, Path.IsFileName name) ∧
      tree.get? place ≠ none ∧ (tree.isFile (pathOf place) = true → IsSourcePlace place) := by
  obtain ⟨targetFound, libraryFound, directory, -⟩ := ofRequest_eq_ok_iff.mp accepted
  rcases List.mem_pair.mp mem with rfl | rfl
  · obtain ⟨place, same, fits, found⟩ := plain.exists_of_canonical libraryFound
    refine ⟨place, same, fits, found, fun isFile => ?_⟩
    rw [same, plain.isDirectory_pathOf fits] at directory
    obtain ⟨-, content, isFile⟩ := (plain.isFile_pathOf fits).mp isFile
    cases directory.2.symm.trans isFile
  · obtain ⟨place, same, fits, found⟩ := plain.exists_of_canonical targetFound
    refine ⟨place, same, fits, found, fun isFile => ?_⟩
    obtain ⟨extension, known, extended⟩ := supported (same ▸ isFile)
    obtain ⟨-, content, stands⟩ := (plain.isFile_pathOf fits).mp isFile
    rcases List.eq_nil_or_concat' place with rfl | ⟨directory, name, rfl⟩
    · cases stands
    · rw [same, extension?_pathOf fits] at extended
      exact ⟨directory, name, rfl, extension, known, extended⟩

/-- All indexed files have a source's name. -/
theorem isSourcePlace_of_indexed (indexed : file ∈ (job.index tree).index.files.toList) :
    ∃ place, file = pathOf place ∧ (∀ name ∈ place, Path.IsFileName name) ∧
      IsSourcePlace place := by
  have mem : file ∈ (Indexing.build tree [job.library, job.target]).index.files.toList := indexed
  rw [Indexing.files_build] at mem
  obtain ⟨path, asked, found⟩ :=
    List.mem_flatMap.mp (mem_sourcesOf_iff.mp (List.mem_of_mem_filter mem))
  obtain ⟨start, rfl, fits, -, named⟩ := exists_place_of_mem plain accepted supported asked
  obtain ⟨place, same, isSource, content, isFile⟩ :=
    plain.isSourcePlace_of_mem_findSources fits named found
  exact ⟨place, same, plain.named (by simp [isFile]), isSource⟩

/-- The batch of a job takes files that lie apart from each other and from all pages. -/
theorem steady_batch :
    (job.batch (job.index tree).index).Steady
      ((job.batch (job.index tree).index).inside (job.index tree).index.files.toList) where
  located file mem := by
    obtain ⟨place, same, fits, isSource⟩ :=
      isSourcePlace_of_indexed plain accepted supported (Batch.mem_of_mem_inside mem)
    exact ⟨place, same, fits, isSource.not_isPagePlace fits⟩
  recoverable file mem after failure fails := by
    obtain ⟨indexed, below⟩ := List.mem_filter.mp mem
    have unpublished : ((job.batch (job.index tree).index).publish file after).1.page =
        .error failure := by
      rw [Batch.publish]
      simp only [fails]
    exact recovers_of_indexed plain.current_named accepted indexed below unpublished
  apart file mem other otherMem different output otherOutput paged otherPaged := by
    obtain ⟨place, rfl, fits, -⟩ :=
      isSourcePlace_of_indexed plain accepted supported (Batch.mem_of_mem_inside mem)
    obtain ⟨otherPlace, rfl, otherFits, -⟩ :=
      isSourcePlace_of_indexed plain accepted supported (Batch.mem_of_mem_inside otherMem)
    refine Layout.destination_ne (rooted_of_ofRequest accepted) fits otherFits ?_ paged otherPaged
    rintro rfl
    exact different rfl

variable (enriched : tree.Enriched after)

include enriched

/-- A tree that has more pages has the same sources. -/
theorem mem_findings_iff :
    .source file ∈ [job.library, job.target].flatMap after.findSources ↔
      .source file ∈ [job.library, job.target].flatMap tree.findSources := by
  rw [List.mem_flatMap, List.mem_flatMap]
  refine exists_congr fun path => and_congr_right fun asked => ?_
  obtain ⟨start, rfl, fits, found, named⟩ := exists_place_of_mem plain accepted supported asked
  have stays {place : Location} {content : ByteArray} (isSource : IsSourcePlace place)
      (fits : ∀ name ∈ place, Path.IsFileName name) :
      after.get? place = some (.file content) ↔ tree.get? place = some (.file content) :=
    enriched.file_iff (isSource.not_isPagePlace fits)
  have sameKind := enriched.kept.isFile_pathOf_eq plain enriched.plain found
  constructor
  · exact enriched.plain.mem_findSources_of_subset fits (sameKind ▸ named) plain sameKind.symm
      fun place isSource content isFile =>
        (stays isSource (enriched.plain.named (by simp [isFile]))).mp isFile
  · exact plain.mem_findSources_of_subset fits named enriched.plain sameKind
      fun place isSource content isFile =>
        (stays isSource (plain.named (by simp [isFile]))).mpr isFile

/-- Pages change nothing in the index. -/
theorem index_enriched : (job.index after).index = (job.index tree).index := by
  have absolute := absolute_of_ofRequest accepted
  have places (file : Path)
      (mem : .source file ∈ [job.library, job.target].flatMap tree.findSources) :
      IsPlacePath file := (Indexing.isSource_of_mem_findings absolute mem).isPlacePath
  have same : sourcesOf ([job.library, job.target].flatMap after.findSources) =
      sourcesOf ([job.library, job.target].flatMap tree.findSources) :=
    (sourcesOf_eq places fun file =>
      (mem_findings_iff plain accepted supported enriched).symm).symm
  change (Indexing.build after _).index = (Indexing.build tree _).index
  rw [Indexing.build, Indexing.build, same]
  refine Indexing.index_foldl_add rfl fun file mem text => ?_
  obtain ⟨path, asked, found⟩ := List.mem_flatMap.mp (mem_sourcesOf_iff.mp mem)
  obtain ⟨start, rfl, fits, -, named⟩ := exists_place_of_mem plain accepted supported asked
  obtain ⟨place, rfl, isSource, content, isFile⟩ :=
    plain.isSourcePlace_of_mem_findSources fits named found
  have placeFits := plain.named (Option.ne_none_iff_exists'.mpr ⟨_, isFile⟩)
  exact enriched.readText_iff (isSource.not_isPagePlace placeFits) plain placeFits

end Accepted

/-- A request that holds in a tree holds in one that has kept every entry, and asks for the same. -/
theorem ofRequest_kept (plain : tree.Plain) (plainAfter : after.Plain) (kept : tree.Kept after)
    (accepted : ofRequest tree request = .ok job) : ofRequest after request = .ok job := by
  obtain ⟨targetFound, libraryFound, directory, rootFound, settings⟩ :=
    ofRequest_eq_ok_iff.mp accepted
  obtain ⟨place, target, -, found⟩ := plain.exists_of_canonical targetFound
  have sameRoot : rootOf after job.target = rootOf tree job.target := by
    rw [target, rootOf, rootOf, kept.isFile_pathOf_eq plain plainAfter found]
  rw [ofRequest_eq_ok_iff, sameRoot, kept.current]
  exact ⟨kept.canonical plain targetFound, kept.canonical plain libraryFound,
    kept.isDirectory plain directory, rootFound, settings⟩

/-- A listing that has been generated is generated again with the same counts and without any change
to the tree: the second run indexes what the first one did, and none of its pages. -/
theorem generate_again (plain : tree.Plain) (accepted : ofRequest tree request = .ok job)
    (supported : tree.isFile job.target = true →
      ∃ extension ∈ sourceExtensions, job.target.extension? = some extension)
    {report : Report} (done : (job.generate tree).result = .ok report) :
    ofRequest (job.generate tree).tree request = .ok job ∧
      (job.generate (job.generate tree).tree).result = .ok report ∧
      (∀ place, (job.generate (job.generate tree).tree).tree.get? place =
        (job.generate tree).tree.get? place) ∧
      (job.index (job.generate tree).tree).index = (job.index tree).index ∧
      ∀ file ∈ (job.index (job.generate tree).tree).index.files, ∀ output,
        .wrotePage output ∈ (job.generate tree).events →
          (job.generate tree).tree.canonical output ≠ .ok file := by
  cases ensured : ensureOutput job.output tree with
  | error cause failed =>
    change (job.pages (job.index tree).index tree).result = _ at done
    rw [pages, ensured] at done
    cases done
  | ok created opened =>
    obtain ⟨widened, opens⟩ := ensureOutput_again plain ensured
    obtain ⟨enriched, sameResult, sameTree⟩ :=
      Batch.run_again (steady_batch plain accepted supported) widened.plain
    obtain ⟨treeEq, resultEq⟩ : (job.generate tree).tree = _ ∧ (job.generate tree).result = _ :=
      pages_of_ensured ensured
    rw [resultEq] at done
    rw [treeEq]
    generalize ((job.batch (job.index tree).index).run (job.index tree).index.files.toList opened).tree
      = after at *
    have index := index_enriched plain accepted supported (widened.enriched.trans enriched)
    obtain ⟨again, ensuredAgain⟩ := opens after enriched.kept
    obtain ⟨treeAgain, resultAgain⟩ : (job.generate after).tree = _ ∧
        (job.generate after).result = _ := pages_of_ensured ensuredAgain
    rw [index] at treeAgain resultAgain ⊢
    have kept := (widened.enriched.trans enriched).kept
    refine ⟨ofRequest_kept plain enriched.plain kept accepted, ?_, ?_, rfl, ?_⟩
    · rw [resultAgain, sameResult, done]
    · rw [treeAgain]
      exact sameTree
    · intro file indexed output written canonical
      rw [← Array.mem_toList_iff] at indexed written
      obtain ⟨_, -, -, paged⟩ := exists_of_mem_pagesWritten_generate (mem_pagesWritten.mpr written)
      obtain ⟨location, resolved, rfl⟩ := exists_resolve_of_canonical canonical
      obtain ⟨place, same, fits, isSource⟩ := isSourcePlace_of_indexed plain accepted supported indexed
      have locationFits : ∀ name ∈ location, Path.IsFileName name :=
        names_of_resolve (.inr enriched.plain.current_named) resolved
      have steps := congrArg Path.steps same
      rw [steps_pathOf locationFits, steps_pathOf fits] at steps
      refine isSource.not_isPagePlace fits ?_
      rw [← eq_of_map_name steps, enriched.plain.eq_destination_of_resolve resolved]
      exact Layout.isPagePlace_destination paged after

theorem plain_reusedTree : reusedTree.Plain := by
  have entries : ∀ entry ∈ reusedTree.entries.toList, ∀ name ∈ entry.1,
      Path.Component.ofPiece? name = some (.name name) ∧ Path.separator ∉ name := by
    decide +kernel
  exact plain_of_entries (by decide +kernel) (by decide +kernel)
    fun entry mem name within => ⟨(entries entry mem name within).1, (entries entry mem name within).2⟩

/-- The first run and the second one write the page of one module and fail on the other. -/
theorem generate_again_reused :
    reusedTree.Plain ∧ ofRequest reusedTree reusedRequest = .ok reusedJob ∧
      (∃ extension ∈ sourceExtensions, reusedJob.target.extension? = some extension) ∧
      (reusedJob.generate reusedTree).result = .ok ⟨1, 1, 0⟩ ∧
      (reusedJob.generate (reusedJob.generate reusedTree).tree).result = .ok ⟨1, 1, 0⟩ := by
  have supported : ∃ extension ∈ sourceExtensions, reusedJob.target.extension? = some extension :=
    ⟨"py".toList, by decide, by decide +kernel⟩
  obtain ⟨-, again, -⟩ := generate_again plain_reusedTree ofRequest_reusedRequest
    (fun _ => supported) result_reused
  exact ⟨plain_reusedTree, ofRequest_reusedRequest, supported, result_reused, again⟩

end Job

end Hyperlisting
