import Hyperlisting.Proofs.Composition.Skeleton
import Hyperlisting.Proofs.Site.Rendering

/-! Moving the output directory. A link goes from one page to another, so it depends only on where
both lie below the output directory: a listing put elsewhere has the same text on every page. -/

namespace Hyperlisting

variable {index : Index} {root file path first second page other : Path} {nesting : Nesting}
  {source : Text} {steps target : List Path.Component}

/-- A path lies below an absolute directory, some steps further down. -/
structure Path.LiesBelow (directory : Path) (steps : List Path.Component) (path : Path) : Prop where
  isAbsolute : path.isAbsolute = true
  way : path.steps = directory.steps ++ steps
  nonempty : steps ≠ []

namespace Path.LiesBelow

variable (lies : first.LiesBelow steps page) (otherLies : second.LiesBelow steps other)

include lies

theorem components : page.components = .root :: first.steps ++ steps := by
  rw [components_of_isAbsolute lies.isAbsolute, lies.way]
  rfl

theorem sameAs_iff (leads : first.LiesBelow target path) :
    path.sameAs page = true ↔ target = steps := by
  rw [Path.sameAs_iff, leads.components, lies.components, List.append_right_inj]

/-- The directory of a page lies where the page lies, without its name. -/
theorem components_parent :
    (page.parent?.getD ⟨[]⟩).components = .root :: first.steps ++ steps.dropLast := by
  have nonempty : page.steps ≠ [] := by simp [lies.way, lies.nonempty]
  obtain ⟨parent, above⟩ := exists_parent? nonempty
  rw [above, Option.getD_some, components_parent? above nonempty, lies.components,
    List.dropLast_append_of_ne_nil lies.nonempty]

include otherLies

theorem fileName?_eq : page.fileName? = other.fileName? := by
  rw [fileName?, fileName?, lies.components, otherLies.components,
    List.getLast?_append_of_ne_nil _ lies.nonempty,
    List.getLast?_append_of_ne_nil _ lies.nonempty]

end Path.LiesBelow

theorem Path.commonSteps_append (base steps target : List Path.Component) :
    commonSteps (base ++ steps) (base ++ target) = base.length + commonSteps steps target := by
  induction base with
  | nil => simp
  | cons step base ih =>
    rw [List.cons_append, List.cons_append, commonSteps, if_pos rfl, ih, List.length_cons]
    omega

/-- The way from one path to another does not depend on the directory above both. -/
theorem Path.relativeTo_eq {base directory : List Path.Component} {way : Path}
    (pathAt : path.components = base ++ target) (wayAt : way.components = base ++ steps)
    {otherPath otherWay : Path} (otherPathAt : otherPath.components = directory ++ target)
    (otherWayAt : otherWay.components = directory ++ steps) :
    path.relativeTo way = otherPath.relativeTo otherWay := by
  have up (base : List Path.Component) : (base ++ steps).length -
      (base.length + commonSteps steps target) = steps.length - commonSteps steps target := by
    rw [List.length_append]
    omega
  simp only [relativeTo, pathAt, wayAt, otherPathAt, otherWayAt, commonSteps_append, up,
    List.drop_length_add_append]

/-- A link is written alike below both directories. -/
theorem Href.relative_eq (lies : first.LiesBelow steps page)
    (otherLies : second.LiesBelow steps other) {link otherLink : Path}
    (leads : first.LiesBelow target link) (otherLeads : second.LiesBelow target otherLink)
    (fragment : Option Text) :
    relative page ⟨link, fragment⟩ = relative other ⟨otherLink, fragment⟩ := by
  have same : link.sameAs page = otherLink.sameAs other := by
    rw [Bool.eq_iff_iff, lies.sameAs_iff leads, otherLies.sameAs_iff otherLeads]
  have way := Path.relativeTo_eq leads.components lies.components_parent
    otherLeads.components otherLies.components_parent
  simp only [relative, same, way, lies.fileName?_eq otherLies]

/-- A root that is not empty, or no absolute path below it: what lies below the root then has its
page below the output directory. -/
def Rooted (root file : Path) : Prop := root.components = [] → file.isAbsolute = false

theorem isAbsolute_below?_of_rooted {relative : Path} (rooted : Rooted root file)
    (found : file.below? root = some relative) : relative.isAbsolute = false := by
  by_cases empty : root.components = []
  · have same := Path.components_below? found
    rw [empty, List.length_nil, List.drop_zero] at same
    rw [Bool.eq_false_iff, ne_eq, Path.isAbsolute_iff_components, same,
      ← Path.isAbsolute_iff_components, rooted empty]
    simp
  · exact Path.isAbsolute_below? found empty

/-- Runs look alike below two directories, each seen in its own way, if references do. -/
theorem CrossReference.runs_alike {α : Type} {view otherView : Run → α}
    (destinations : ∀ token declaration,
      view (destination token declaration) = otherView (destination token declaration))
    (references : ∀ token, ∀ declaration ∈ index.declarations,
      view (reference ⟨root, first⟩ token declaration) =
        otherView (reference ⟨root, second⟩ token declaration))
    (file : Path) (source : Text) :
    (runs index ⟨root, first⟩ file source).map view =
      (runs index ⟨root, second⟩ file source).map otherView := by
  simp only [runs, List.map_filterMap]
  congr 1
  funext token
  unfold run?
  split
  · rfl
  · split
    · exact congrArg some (destinations ..)
    · dsimp only
      cases resolved : resolve index token.text file (token.place.previous = some '.') with
      | none => rfl
      | some declaration =>
        have known : declaration ∈ index.declarations := by
          obtain ⟨i, _, found⟩ := List.mem_filterMap.mp (mem_lookup_of_resolve resolved)
          exact Array.mem_of_getElem? found
        exact congrArg some (references token declaration known)

section TwoDirectories

variable (firstAbsolute : first.isAbsolute = true) (secondAbsolute : second.isAbsolute = true)

include firstAbsolute secondAbsolute

/-- A file has a page path in both layouts, the same way below both directories, or in neither. -/
theorem Layout.pagePath_cases_two (rooted : Rooted root file) :
    (∃ failure, Layout.pagePath ⟨root, first⟩ file = .error failure ∧
        Layout.pagePath ⟨root, second⟩ file = .error failure) ∨
      ∃ page other steps, Layout.pagePath ⟨root, first⟩ file = .ok page ∧
        Layout.pagePath ⟨root, second⟩ file = .ok other ∧
        first.LiesBelow steps page ∧ second.LiesBelow steps other := by
  cases firstPaged : Layout.pagePath ⟨root, first⟩ file with
  | error failure =>
    refine .inl ⟨failure, rfl, ?_⟩
    unfold Layout.pagePath at firstPaged ⊢
    dsimp only at firstPaged ⊢
    split at firstPaged
    · exact firstPaged
    · split at firstPaged
      · exact firstPaged
      · cases firstPaged
  | ok page =>
    obtain ⟨relative, name, below, named, _⟩ := Layout.pagePath_cases firstPaged
    have found : file.below? root = some relative := below
    have isRelative := isAbsolute_below?_of_rooted rooted found
    obtain ⟨other, secondPaged⟩ : ∃ other, Layout.pagePath ⟨root, second⟩ file = .ok other := by
      rw [Layout.pagePath]
      dsimp only
      rw [found]
      dsimp only
      rw [named]
      exact ⟨_, rfl⟩
    have alike {output page : Path} (paged : Layout.pagePath ⟨root, output⟩ file = .ok page) :=
      Layout.steps_pagePath found isRelative paged
    obtain ⟨absolute, name, named, steps⟩ := alike firstPaged
    obtain ⟨otherAbsolute, otherName, otherNamed, otherSteps⟩ := alike secondPaged
    obtain rfl := Option.some.inj (named.symm.trans otherNamed)
    exact .inr ⟨page, other, _, rfl, secondPaged,
      ⟨absolute.trans firstAbsolute, steps, by simp⟩,
      ⟨otherAbsolute.trans secondAbsolute, otherSteps, by simp⟩⟩

variable (lies : first.LiesBelow steps page) (otherLies : second.LiesBelow steps other)

include lies otherLies

/-- A reference has the same ends, family and element on both pages. -/
theorem CrossReference.reference_alike (token : Token) {declaration : Declaration}
    (rooted : Rooted root declaration.file) :
    (reference ⟨root, first⟩ token declaration).skeleton =
        (reference ⟨root, second⟩ token declaration).skeleton ∧
      (reference ⟨root, first⟩ token declaration).element page =
        (reference ⟨root, second⟩ token declaration).element other := by
  rcases Layout.pagePath_cases_two firstAbsolute secondAbsolute rooted with
    ⟨failure, paged, otherPaged⟩ | ⟨link, otherLink, target, paged, otherPaged, leads, otherLeads⟩
  · simp only [reference, paged, otherPaged]
    exact ⟨rfl, rfl⟩
  · have href := Href.relative_eq lies otherLies leads otherLeads (some declaration.anchor)
    simp only [reference, paged, otherPaged, Run.element, href]
    exact ⟨rfl, rfl⟩

variable (rooted : ∀ declaration ∈ index.declarations, Rooted root declaration.file)

include rooted

/-- The runs of both pages have the same skeletons, and the same elements each on its page. -/
theorem pageRuns_alike (file : Path) (source : Text) :
    (pageRuns index ⟨root, first⟩ file source).map Run.skeleton =
        (pageRuns index ⟨root, second⟩ file source).map Run.skeleton ∧
      (pageRuns index ⟨root, first⟩ file source).map (·.element page) =
        (pageRuns index ⟨root, second⟩ file source).map (·.element other) := by
  have elements : (Highlight.runs source).map (·.element page) =
      (Highlight.runs source).map (·.element other) := by
    apply List.map_congr_left
    intro run mem
    obtain ⟨className, styled, _⟩ := Highlight.treatment_of_mem_runs mem
    rw [Run.element, Run.element, styled]
  have alike (token : Token) (declaration : Declaration) (known : declaration ∈ index.declarations) :=
    CrossReference.reference_alike firstAbsolute secondAbsolute lies otherLies
      token (rooted declaration known)
  have skeletons : (CrossReference.runs index ⟨root, first⟩ file source).map Run.skeleton =
      (CrossReference.runs index ⟨root, second⟩ file source).map Run.skeleton :=
    CrossReference.runs_alike (fun _ _ => rfl)
      (fun token declaration known => (alike token declaration known).1) file source
  have destinations (token : Token) (declaration : Declaration) :
      (CrossReference.destination token declaration).element page =
        (CrossReference.destination token declaration).element other := rfl
  have references : (CrossReference.runs index ⟨root, first⟩ file source).map (·.element page) =
      (CrossReference.runs index ⟨root, second⟩ file source).map (·.element other) :=
    CrossReference.runs_alike destinations
      (fun token declaration known => (alike token declaration known).2) file source
  simp only [pageRuns, List.map_append, elements, skeletons, references, and_self]

/-- The page of a source text comes out alike below both directories. -/
theorem renderSource_alike (paged : Layout.pagePath ⟨root, first⟩ file = .ok page)
    (otherPaged : Layout.pagePath ⟨root, second⟩ file = .ok other) (nesting : Nesting)
    (source : Text) :
    ∃ html,
      ((Batch.listing index ⟨root, first⟩ nesting).renderSource file source).page =
          .ok ⟨file, page, html⟩ ∧
        ((Batch.listing index ⟨root, second⟩ nesting).renderSource file source).page =
          .ok ⟨file, other, html⟩ := by
  obtain ⟨skeletons, elements⟩ :=
    pageRuns_alike firstAbsolute secondAbsolute lies otherLies rooted file source
  have body := Composition.body_partition_eq skeletons elements nesting source
  rw [Batch.page_renderSource, Batch.page_renderSource, paged, otherPaged, ok_bind, ok_bind,
    Layout.assemble_eq_ok paged, Layout.assemble_eq_ok otherPaged, body]
  exact ⟨_, rfl, rfl⟩

end TwoDirectories

/-- A listing can be put below any absolute directory: a page is there in both places or in
neither, it has the same text, and it lies on the same way below each directory. The root is not
empty, or else no path below it is absolute. -/
theorem renderSource_relocates (index : Index) (root path : Path) (source : Text)
    (nesting : Nesting) (first second : Path) (firstAbsolute : first.isAbsolute = true)
    (secondAbsolute : second.isAbsolute = true)
    (rooted : root.components = [] → path.isAbsolute = false ∧
      ∀ declaration ∈ index.declarations, declaration.file.isAbsolute = false) :
    (path.startsWith root = true → path.components ≠ root.components →
      path.fileName?.isSome = true → ∃ page,
        ((Batch.listing index ⟨root, first⟩ nesting).renderSource path source).page = .ok page) ∧
    (∀ failure,
      ((Batch.listing index ⟨root, first⟩ nesting).renderSource path source).page =
          .error failure →
        ((Batch.listing index ⟨root, second⟩ nesting).renderSource path source).page =
          .error failure) ∧
    ∀ page,
      ((Batch.listing index ⟨root, first⟩ nesting).renderSource path source).page = .ok page →
        ∃ other steps,
          ((Batch.listing index ⟨root, second⟩ nesting).renderSource path source).page =
            .ok other ∧
          other.html = page.html ∧ other.source = page.source ∧ steps ≠ [] ∧
          page.output.components = first.components ++ steps ∧
          other.output.components = second.components ++ steps := by
  have pathRooted : Rooted root path := fun empty => (rooted empty).1
  have filesRooted : ∀ declaration ∈ index.declarations, Rooted root declaration.file :=
    fun declaration known empty => (rooted empty).2 declaration known
  rcases Layout.pagePath_cases_two firstAbsolute secondAbsolute pathRooted with
    ⟨failure, paged, otherPaged⟩ | ⟨page, other, steps, paged, otherPaged, lies, otherLies⟩
  · have unrendered : ((Batch.listing index ⟨root, first⟩ nesting).renderSource path source).page =
        .error failure := by
      rw [Batch.page_renderSource, paged]
      rfl
    have otherUnrendered :
        ((Batch.listing index ⟨root, second⟩ nesting).renderSource path source).page =
          .error failure := by
      rw [Batch.page_renderSource, otherPaged]
      rfl
    rw [unrendered, otherUnrendered]
    refine ⟨?_, fun _ same => same, fun page same => (by cases same)⟩
    intro below different named
    obtain ⟨name, named⟩ := Option.isSome_iff_exists.mp named
    obtain ⟨output, found⟩ : ∃ output, Layout.pagePath ⟨root, first⟩ path = .ok output :=
      Layout.exists_pagePath (Path.startsWith_iff.mp below) different.symm named
    rw [paged] at found
    cases found
  · obtain ⟨html, rendered, otherRendered⟩ := renderSource_alike firstAbsolute secondAbsolute lies
      otherLies filesRooted paged otherPaged nesting source
    rw [rendered, otherRendered]
    refine ⟨fun _ _ _ => ⟨_, rfl⟩, fun failure same => (by cases same), ?_⟩
    intro page' same
    obtain rfl := Except.ok.inj same
    refine ⟨_, steps, rfl, rfl, rfl, lies.nonempty, ?_, ?_⟩
    · rw [lies.components, Path.components_of_isAbsolute firstAbsolute]
    · rw [otherLies.components, Path.components_of_isAbsolute secondAbsolute]

/-- A module that links to another one has the same text in a directory whose path is written
with a dot and doubled separators. -/
theorem renderSource_relocates_linkedFiles :
    ∃ page other steps,
      ((Batch.listing (Index.ofFiles linkedFiles) ⟨⟨"/r".toList⟩, ⟨"/out".toList⟩⟩
        .linksInnermost).renderSource ⟨"/r/a.py".toList⟩ "def f(g):\n  return f(x)\n".toList).page =
          .ok page ∧
      ((Batch.listing (Index.ofFiles linkedFiles) ⟨⟨"/r".toList⟩, ⟨"/srv/.//www/../".toList⟩⟩
        .linksInnermost).renderSource ⟨"/r/a.py".toList⟩ "def f(g):\n  return f(x)\n".toList).page =
          .ok other ∧
      other.html = page.html ∧
      page.output.components = (Path.mk "/out".toList).components ++ steps ∧
      other.output.components = (Path.mk "/srv/.//www/../".toList).components ++ steps := by
  obtain ⟨exists_, _, alike⟩ := renderSource_relocates (Index.ofFiles linkedFiles) ⟨"/r".toList⟩
    ⟨"/r/a.py".toList⟩ "def f(g):\n  return f(x)\n".toList .linksInnermost ⟨"/out".toList⟩
    ⟨"/srv/.//www/../".toList⟩ rfl rfl (fun empty => absurd empty (by decide +kernel))
  obtain ⟨page, rendered⟩ := exists_ (by decide +kernel) (by decide +kernel) (by decide +kernel)
  obtain ⟨other, steps, otherRendered, html, _, _, output, otherOutput⟩ := alike page rendered
  exact ⟨page, other, steps, rendered, otherRendered, html, output, otherOutput⟩

/-- Below the empty root an absolute path stays where it is: its page lies beside it and not below
the output directory. -/
theorem not_relocates_emptyRoot :
    (Path.mk "/x/b.py".toList).startsWith ⟨[]⟩ = true ∧
      ∃ page,
        ((Batch.listing {} ⟨⟨[]⟩, ⟨"/out".toList⟩⟩ .linksInnermost).renderSource
          ⟨"/x/b.py".toList⟩ []).page = .ok page ∧
        page.output = ⟨"/x/b.py.html".toList⟩ ∧
        ∀ steps, page.output.components ≠ (Path.mk "/out".toList).components ++ steps := by
  have paged : Layout.pagePath ⟨⟨[]⟩, ⟨"/out".toList⟩⟩ ⟨"/x/b.py".toList⟩ =
      .ok ⟨"/x/b.py.html".toList⟩ := by
    cbv
  have rendered := Batch.page_renderSource {} ⟨⟨[]⟩, ⟨"/out".toList⟩⟩ .linksInnermost
    ⟨"/x/b.py".toList⟩ []
  rw [paged, ok_bind, Layout.assemble_eq_ok paged] at rendered
  refine ⟨rfl, _, rendered, rfl, ?_⟩
  intro steps same
  have beside : (Path.mk "/x/b.py.html".toList).components[1]? = some (.name "x".toList) := by
    decide +kernel
  have below : ((Path.mk "/out".toList).components ++ steps)[1]? = some (.name "out".toList) := by
    have length : (Path.mk "/out".toList).components.length = 2 := by decide +kernel
    rw [List.getElem?_append_left (by omega)]
    decide +kernel
  rw [← same] at below
  exact absurd (beside.symm.trans below) (by decide)

end Hyperlisting
