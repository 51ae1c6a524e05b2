import Hyperlisting.Proofs.FileTree.Reading
import Hyperlisting.Proofs.Site.Generation
import Hyperlisting.Proofs.Site.Placing

/-! What publishing a file ensures while other workers change the tree: the file is rendered as it
would be in the tree that they all started from, and its page is written or fails as that tree
admits it. -/

namespace Hyperlisting

open FileTree Footprint

variable {batch : Batch} {origin base tree : FileTree} {file : Path} {name : OsText}
  {place : Location} {page : Page}

/-- A page lies at the end of a path that ends in a name and nothing else. -/
theorem Layout.tidy_pagePath {layout : Layout} {output : Path}
    (paged : layout.pagePath file = .ok output) :
    Tidy output ∧ ∃ last, output.steps.getLast? = some (.name (last ++ Layout.pageSuffix)) := by
  obtain ⟨relative, name, found, named, rfl⟩ := Layout.pagePath_cases paged
  have fits := Path.isFileName_of_fileName? named
  have joined : (layout.output.join relative).fileName? = some name := by
    cases absolute : relative.isAbsolute with
    | true => rwa [Path.join, if_pos absolute]
    | false =>
      obtain ⟨front, steps⟩ := Path.exists_steps_of_fileName? named
      have whole : (layout.output.join relative).steps =
          (layout.output.steps ++ front) ++ [.name name] := by
        rw [Path.steps_join absolute, steps, List.append_assoc]
      exact Path.fileName?_of_steps whole
  have pageFits := Layout.isFileName_append_pageSuffix fits
  obtain ⟨front, pieces⟩ := Path.exists_pieces_withFileName joined pageFits
  constructor
  · intro piece last
    rw [pieces, List.getLast?_concat] at last
    obtain rfl := Option.some.inj last
    exact ⟨_, pageFits.ofPiece⟩
  · exact ⟨name, by rw [Path.steps_withFileName joined pageFits, List.getLast?_concat]⟩

example : ((Layout.mk ⟨"/R".toList⟩ ⟨"/R/out".toList⟩).pagePath ⟨"/R/p/a.py".toList⟩).toOption =
    some ⟨"/R/out/p/a.py.html".toList⟩ := by
  decide +kernel

/-- The name that a worker alone chooses for its unfinished page is none that the others look for. -/
theorem exists_chosen {page : Page} {last : OsText}
    (named : page.output.steps.getLast? = some (.name (last ++ Layout.pageSuffix)))
    (outgrown : Outgrown origin tree
      (passed (origin.startOfPath page.output) page.output.steps.dropLast))
    (room : tree.room = origin.room) :
    ∃ name, Worker.Chosen page name tree ∧
      unfinished origin page.output name ≠ origin.destination page.output ∧
      unfinished origin page.output name ∉ wantedAbove origin page.output ∧
      tree.get? (unfinished origin page.output name) = none := by
  let footprint : Footprint := {
    area := passed (origin.startOfPath page.output) page.output.steps.dropLast
    own := [origin.destination page.output]
    wanted := wantedAbove origin page.output }
  have view : footprint.View origin tree tree := ⟨outgrown, room, fun _ _ => .inl rfl⟩
  obtain ⟨keeps, prepared⟩ :=
    (ensures_makeDirectories named (List.Subset.refl _) (List.Subset.refl _) view).alone
  rw [Worker.alone_makeNested] at keeps prepared
  let made := (Worker.outcome
    (FileTree.makeNested (ancestry (Worker.directoryOf page.output)) tree)).2
  let name := made.freshName (origin.destination page.output).dropLast
  have fresh : made.get? (unfinished origin page.output name) = none :=
    get?_freshName made (origin.destination page.output).dropLast
  have different : unfinished origin page.output name ≠ origin.destination page.output := by
    rw [unfinished, destination_eq named, List.dropLast_concat]
    intro same
    have sameName := List.singleton_inj.mp (List.append_cancel_left same)
    refine not_mem_freshName made (origin.destination page.output).dropLast ?_
    change 'h'.toUInt8 ∈ name
    rw [sameName]
    exact List.mem_append_right _ (by decide)
  refine ⟨name, fun after place makes resolved => ?_, different, fun wanted => ?_, ?_⟩
  · have ends : FileTree.makeNested (ancestry (Worker.directoryOf page.output)) tree =
        .ok () after := makes
    rw [ends] at prepared
    obtain ⟨view, paved, accepted⟩ := prepared
    have lands := resolve_spelled named view.outgrown paved accepted
    obtain rfl := Except.ok.inj (lands.symm.trans resolved)
    simp only [name, made, ends, Worker.outcome]
  · have directory : made.get? (unfinished origin page.output name) = some .directory := by
      obtain ⟨-, prepared⟩ := prepared
      split at prepared
      · exact prepared.1.built _ (wantedAbove_subset wanted)
      · exact prepared.2 _ wanted
    rw [fresh] at directory
    cases directory
  · rcases keeps.elsewhere _ (by simpa [footprint] using different) with same | ⟨-, absent, -⟩
    · exact same.symm.trans fresh
    · exact absent

namespace Batch

theorem destination_mem_route_page (rendered : (batch.renderFile origin file).page = .ok page) :
    origin.destination page.output ∈ origin.route page.output := by
  obtain ⟨-, last, named⟩ := Layout.tidy_pagePath (pagePath_of_renderFile rendered)
  refine destination_mem_route (fun empty => ?_) origin
  rw [empty] at named
  cases named

/-- A file comes to the same page or failure in two trees, or cannot be read in either. -/
def RendersAlike (batch : Batch) (origin tree : FileTree) (file : Path) : Prop :=
  (batch.renderFile tree file).page = (batch.renderFile origin file).page ∨
    (∃ cause, (batch.renderFile tree file).page = .error (.read file cause)) ∧
      ∃ cause, (batch.renderFile origin file).page = .error (.read file cause)

theorem rendersAlike_of_readText
    (same : ∀ text, tree.readText file = .ok text ↔ origin.readText file = .ok text) :
    batch.RendersAlike origin tree file := by
  cases was : origin.readText file with
  | ok text =>
    refine .inl ?_
    rw [renderFile, renderFile, was, (same text).mpr was]
  | error cause =>
    refine .inr ⟨?_, cause, by rw [renderFile, was]⟩
    cases now : tree.readText file with
    | ok text =>
      rw [(same text).mp now] at was
      cases was
    | error cause => exact ⟨cause, by rw [renderFile, now]⟩

/-- A listed file is read and rendered as it was before others made directories. -/
theorem rendersAlike_of_outgrown (canonical : origin.Canonical file) (sound : origin.Sound)
    (outgrown : Outgrown origin tree (origin.route file)) : batch.RendersAlike origin tree file :=
  rendersAlike_of_readText fun _ => readText_eq_ok_iff canonical outgrown sound

theorem RendersAlike.ok_iff (alike : batch.RendersAlike origin tree file) :
    (batch.renderFile tree file).page = .ok page ↔
      (batch.renderFile origin file).page = .ok page := by
  rcases alike with same | ⟨⟨_, now⟩, _, was⟩
  · rw [same]
  · simp [now, was]

/-- Not to be read is recoverable, so the other failures are the same. -/
theorem RendersAlike.error_iff {failure : Failure} (alike : batch.RendersAlike origin tree file)
    (fatal : failure.isRecoverable = false) :
    (batch.renderFile tree file).page = .error failure ↔
      (batch.renderFile origin file).page = .error failure := by
  rcases alike with same | ⟨⟨_, now⟩, _, was⟩
  · rw [same]
  · have notRead (cause : SystemError) : Failure.read file cause ≠ failure := by
      rintro rfl
      cases fatal
    simp [now, was, notRead]

/-- The places that matter to the worker of a file. -/
def footprint (batch : Batch) (origin : FileTree) (name : OsText) (file : Path) : Footprint :=
  match (batch.renderFile origin file).page with
  | .error _ => { area := origin.route file, own := [], wanted := [] }
  | .ok page => {
      area := origin.route file ++
        passed (origin.startOfPath page.output) page.output.steps.dropLast
      own := [origin.destination page.output, unfinished origin page.output name]
      wanted := wantedAbove origin page.output }

section Rendered

variable (rendered : (batch.renderFile origin file).page = .ok page)

include rendered

theorem way_subset_area : passed (origin.startOfPath page.output) page.output.steps.dropLast ⊆
    (batch.footprint origin name file).area := by
  rw [footprint, rendered]
  exact List.subset_append_right ..

theorem own_eq : (batch.footprint origin name file).own =
    [origin.destination page.output, unfinished origin page.output name] := by
  rw [footprint, rendered]

theorem wanted_eq : (batch.footprint origin name file).wanted = wantedAbove origin page.output := by
  rw [footprint, rendered]

end Rendered

theorem route_subset_area : origin.route file ⊆ (batch.footprint origin name file).area := by
  rw [footprint]
  split
  · exact List.Subset.refl _
  · exact List.subset_append_left ..

theorem mem_area (mem : place ∈ (batch.footprint origin name file).area) :
    place ∈ origin.route file ∨ ∃ page, (batch.renderFile origin file).page = .ok page ∧
      place ∈ passed (origin.startOfPath page.output) page.output.steps.dropLast := by
  rw [footprint] at mem
  split at mem
  · exact .inl mem
  · rename_i page rendered
    exact (List.mem_append.mp mem).imp_right fun mem => ⟨page, rendered, mem⟩

theorem mem_own {place : Location} (mem : place ∈ (batch.footprint origin name file).own) :
    ∃ page, (batch.renderFile origin file).page = .ok page ∧
      (place = origin.destination page.output ∨ place = unfinished origin page.output name) := by
  rw [footprint] at mem
  split at mem
  · cases mem
  · rename_i page rendered
    exact ⟨page, rendered, List.mem_pair.mp mem⟩

theorem get?_of_mem_wanted (mem : place ∈ (batch.footprint origin name file).wanted) :
    origin.get? place = none := by
  rw [footprint] at mem
  split at mem
  · cases mem
  · exact get?_of_mem_missing (wantedAbove_subset mem)

theorem wanted_subset_area :
    (batch.footprint origin name file).wanted ⊆ (batch.footprint origin name file).area := by
  rw [footprint]
  split
  · exact List.nil_subset _
  · exact fun place mem => List.mem_append_right _
      (missing_subset_passed _ _ _ (wantedAbove_subset mem))

/-- What publishing a file ensures of its result and of the tree. -/
def Published (batch : Batch) (origin base : FileTree) (name : OsText) (file : Path)
    (result : Except Failure Page) (tree : FileTree) : Prop :=
  match (batch.renderFile origin file).page with
  | .error _ => ∃ failure : Failure, result = .error failure ∧ failure.isRecoverable = true
  | .ok page => ∃ outcome : Except SystemError Unit,
      Written origin base page.output name (String.ofList page.html).toUTF8 outcome tree ∧
        result =
          match outcome with
          | .ok _ => .ok page
          | .error cause => .error (.write page.output cause)

theorem ensures_publish (canonical : origin.Canonical file) (sound : origin.Sound)
    (recoverable : ∀ failure, (batch.renderFile origin file).page = .error failure →
      failure.isRecoverable = true)
    (apart : ∀ page, (batch.renderFile origin file).page = .ok page →
      unfinished origin page.output name ≠ origin.destination page.output ∧
        unfinished origin page.output name ∉ wantedAbove origin page.output ∧
        base.get? (origin.destination page.output) = origin.get? (origin.destination page.output) ∧
        base.get? (unfinished origin page.output name) = none)
    (view : (batch.footprint origin name file).View origin base tree) :
    (batch.footprint origin name file).Ensures origin (batch.Published origin base name file)
      (Worker.publish batch name file) tree := by
  intro found rely
  have view := view.rely rely
  refine ⟨.refl .., ?_⟩
  beta_reduce
  have alike : batch.RendersAlike origin found file :=
    rendersAlike_of_outgrown canonical sound (view.outgrown.mono route_subset_area)
  cases now : (batch.renderFile found file).page with
  | error failure =>
    intro later _
    rw [Published]
    cases rendered : (batch.renderFile origin file).page with
    | ok page => cases (alike.ok_iff.mpr rendered).symm.trans now
    | error _ =>
      refine ⟨failure, rfl, ?_⟩
      by_contra fatal
      exact fatal (recoverable failure ((alike.error_iff (by simpa using fatal)).mp now))
  | ok page =>
    have rendered := alike.ok_iff.mp now
    obtain ⟨different, unwanted, kept, absent⟩ := apart page rendered
    obtain ⟨tidy, last, named⟩ := Layout.tidy_pagePath (pagePath_of_renderFile rendered)
    have area := @way_subset_area _ _ _ name _ rendered
    have wanted := @wanted_eq _ _ _ name _ rendered
    have ownDestination : origin.destination page.output ∈
        (batch.footprint origin name file).own := by simp [own_eq rendered]
    have ownTemporary : unfinished origin page.output name ∈
        (batch.footprint origin name file).own := by simp [own_eq rendered]
    refine (ensures_write tidy named area ownDestination ownTemporary different wanted
      (wanted ▸ unwanted) kept absent view).bind ?_
    intro outcome between written
    have stays {later : FileTree} (rely : Footprint.Rely _ origin between later) :=
      Written.rely area ownDestination ownTemporary written rely
    cases outcome with
    | ok =>
      intro later rely
      rw [Published, rendered]
      exact ⟨.ok (), stays rely, rfl⟩
    | error cause =>
      intro later rely
      rw [Published, rendered]
      exact ⟨.error cause, stays rely, rfl⟩

/-- A file whose page is written. -/
def Writes (batch : Batch) (origin : FileTree) (file : Path) : Prop :=
  ∃ page, (batch.renderFile origin file).page = .ok page ∧
    Admits origin page.output (String.ofList page.html).toUTF8

/-- A place that publishing a file changes. -/
def Touches (batch : Batch) (origin : FileTree) (file : Path) (place : Location) : Prop :=
  ∃ page, (batch.renderFile origin file).page = .ok page ∧
    (Admits origin page.output (String.ofList page.html).toUTF8 ∧
        place = origin.destination page.output ∨
      place ∈ wantedAbove origin page.output)

/-- Publishing comes to a page if one is to be written, and else to trouble that stops no batch. -/
def Verdict (writes : Prop) : Except Failure Page → Prop
  | .ok _ => writes
  | .error failure => failure.isRecoverable = true ∧ ¬ writes

section Published

variable {after : FileTree} {page : Page} {place : Location} {result : Except Failure Page}
  (published : batch.Published origin base name file result after)

include published

theorem Published.written (rendered : (batch.renderFile origin file).page = .ok page)
    (admits : Admits origin page.output (String.ofList page.html).toUTF8) :
    after.get? (origin.destination page.output) =
      some (.file (String.ofList page.html).toUTF8) := by
  rw [Published, rendered] at published
  obtain ⟨outcome, written, -⟩ := published
  have destination := written.destination
  split at destination
  · exact destination.2
  · exact absurd admits destination.1

theorem Published.made (rendered : (batch.renderFile origin file).page = .ok page) :
    ∀ place ∈ wantedAbove origin page.output, after.get? place = some .directory := by
  rw [Published, rendered] at published
  obtain ⟨outcome, written, -⟩ := published
  exact written.made

theorem Published.verdict : Verdict (batch.Writes origin file) result := by
  rw [Published] at published
  split at published
  · rename_i failure rendered
    obtain ⟨_, rfl, recoverable⟩ := published
    refine ⟨recoverable, ?_⟩
    rintro ⟨page, same, -⟩
    cases rendered.symm.trans same
  · rename_i page rendered
    obtain ⟨outcome, written, rfl⟩ := published
    have destination := written.destination
    cases outcome with
    | ok => exact ⟨page, rendered, destination.1⟩
    | error cause =>
      refine ⟨rfl, ?_⟩
      rintro ⟨other, same, admits⟩
      obtain rfl := Except.ok.inj (rendered.symm.trans same)
      exact destination.1 admits

end Published

/-- A place of its own that publishing does not touch is that of a page that is not admitted, or
that of the unfinished page. -/
theorem Published.own {result : Except Failure Page} {after : FileTree} {place : Location}
    (published : batch.Published origin base name file result after)
    (absent : ∀ page, (batch.renderFile origin file).page = .ok page →
      base.get? (unfinished origin page.output name) = none)
    (mem : place ∈ (batch.footprint origin name file).own)
    (untouched : ¬ batch.Touches origin file place) : after.get? place = base.get? place := by
  obtain ⟨page, rendered, lands⟩ := mem_own mem
  rw [Published, rendered] at published
  obtain ⟨outcome, written, -⟩ := published
  rcases lands with rfl | rfl
  · have destination := written.destination
    split at destination
    · exact absurd ⟨page, rendered, .inl ⟨destination.1, rfl⟩⟩ untouched
    · exact destination.2.resolve_right fun wanted =>
        untouched ⟨page, rendered, .inr wanted⟩
  · rw [written.temporary, absent page rendered]

theorem touches_of_mem_wanted {place : Location}
    (mem : place ∈ (batch.footprint origin name file).wanted) :
    batch.Touches origin file place := by
  rw [footprint] at mem
  split at mem
  · cases mem
  · rename_i page rendered
    exact ⟨page, rendered, .inr mem⟩

/-- What publishing a file does to a tree, told from a tree that this one has grown out of: the page
comes to its place if it is admitted there, and the directories on the way are made. -/
structure Publishes (batch : Batch) (origin : FileTree) (file : Path) (tree after : FileTree) :
    Prop where
  current : after.current = tree.current
  room : after.room = tree.room
  sound : after.Sound
  written : ∀ page, (batch.renderFile origin file).page = .ok page →
    Admits origin page.output (String.ofList page.html).toUTF8 →
    after.get? (origin.destination page.output) = some (.file (String.ofList page.html).toUTF8)
  made : ∀ page, (batch.renderFile origin file).page = .ok page →
    ∀ place ∈ wantedAbove origin page.output, after.get? place = some .directory
  elsewhere : ∀ place, ¬ batch.Touches origin file place → after.get? place = tree.get? place

section Grown

variable (canonical : origin.Canonical file) (sound : origin.Sound)
  (outgrown : ∀ name, Outgrown origin tree (batch.footprint origin name file).area)
  (room : tree.room = origin.room)
  (kept : ∀ page, (batch.renderFile origin file).page = .ok page →
    tree.get? (origin.destination page.output) = origin.get? (origin.destination page.output))

include canonical sound outgrown room kept

theorem exists_chosen :
    ∃ name, (∀ page, (batch.renderFile tree file).page = .ok page → Worker.Chosen page name tree) ∧
      ∀ page, (batch.renderFile origin file).page = .ok page →
        unfinished origin page.output name ≠ origin.destination page.output ∧
        unfinished origin page.output name ∉ wantedAbove origin page.output ∧
        tree.get? (origin.destination page.output) = origin.get? (origin.destination page.output) ∧
        tree.get? (unfinished origin page.output name) = none := by
  have alike : batch.RendersAlike origin tree file :=
    rendersAlike_of_outgrown canonical sound ((outgrown []).mono route_subset_area)
  cases rendered : (batch.renderFile origin file).page with
  | error failure =>
    refine ⟨[], fun page now => ?_, fun _ none => by cases none⟩
    cases rendered.symm.trans (alike.ok_iff.mp now)
  | ok page =>
    obtain ⟨-, last, named⟩ := Layout.tidy_pagePath (pagePath_of_renderFile rendered)
    obtain ⟨name, chosen, different, unwanted, absent⟩ :=
      Hyperlisting.exists_chosen named ((outgrown []).mono (way_subset_area rendered)) room
    refine ⟨name, fun other now => ?_, fun other same => ?_⟩
    · obtain rfl := Except.ok.inj (rendered.symm.trans (alike.ok_iff.mp now))
      exact chosen
    · obtain rfl := Except.ok.inj same
      exact ⟨different, unwanted, kept page rendered, absent⟩

/-- A page is written exactly if the first tree lets it be. -/
theorem publishes_publish (recoverable : ∀ failure,
      (batch.renderFile origin file).page = .error failure → failure.isRecoverable = true) :
    batch.Publishes origin file tree (batch.publish file tree).2 ∧
      Verdict (batch.Writes origin file) (batch.publish file tree).1.page := by
  obtain ⟨name, chosen, apart⟩ := exists_chosen canonical sound outgrown room kept
  have view : (batch.footprint origin name file).View origin tree tree :=
    ⟨outgrown name, room, fun _ _ => .inl rfl⟩
  obtain ⟨keeps, published⟩ := (ensures_publish canonical sound recoverable apart view).alone
  rw [Worker.alone_publish chosen] at keeps published
  refine ⟨⟨keeps.current, keeps.room, keeps.sound (outgrown name).sound, fun _ => published.written,
    fun _ => published.made, fun place untouched => ?_⟩, published.verdict⟩
  by_cases own : place ∈ (batch.footprint origin name file).own
  · exact published.own (fun page rendered => (apart page rendered).2.2.2) own untouched
  · exact (keeps.elsewhere place own).resolve_right fun made =>
      untouched (touches_of_mem_wanted made.1)

end Grown

end Batch
end Hyperlisting
