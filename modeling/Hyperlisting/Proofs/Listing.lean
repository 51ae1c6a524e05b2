import Hyperlisting.Proofs.Composition.Lines
import Hyperlisting.Proofs.Composition.Surroundings
import Hyperlisting.Proofs.Page
import Hyperlisting.Proofs.Producers

/-! The pages of a listing: highlights and cross references composed. Both lie over tokens, so no
run splits another and no two links overlap; with the labels of lines, every id of a page is
unique. -/

namespace Hyperlisting

open Markup Token

variable {index : Index} {layout : Layout} {file : Path} {source : Text} {nesting : Nesting}
  {runs table : List Run} {c : Composition}

/-- The runs of a page: the highlights of its source, then its cross references. -/
def pageRuns (index : Index) (layout : Layout) (file : Path) (source : Text) : List Run :=
  Highlight.runs source ++ CrossReference.runs index layout file source

namespace Composition

/-- Runs over tokens share all their text or none, so none splits another. -/
theorem unsplit_of_overToken (covers : ∀ run ∈ table, run.OverToken source) {i : Nat} {run : Run}
    (mem : run ∈ table) : Unsplit nesting table i run := by
  intro j other atPlace _ _ before after
  obtain ⟨start, stop⟩ := (covers run mem).eq_of_overlap
    (covers other (List.mem_of_getElem? atPlace)) after before
  omega

theorem lt_size_of_mem_openings (fits : c.Fits source) {i : Nat} (mem : i ∈ c.openings) :
    i < c.runs.size := by
  rcases List.mem_append.mp mem with mem | mem
  · obtain ⟨span, inSpans, active | marker⟩ := exists_of_mem_openedFrom mem
    · exact fits.active span inSpans i active
    · exact fits.markers span inSpans i marker
  · exact fits.trailing i mem

theorem exists_of_mem_active (composed : compose source runs nesting = .ok c) {span : Span}
    (mem : span ∈ c.spans) {i : Nat} (active : i ∈ span.active) :
    ∃ run, c.runs[i]? = some run ∧ run.start ≤ span.start ∧ span.start < run.stop := by
  obtain ⟨fits, rfl⟩ := compose_eq_ok_iff.mp composed
  have tiles : Tiles 0 (partition nesting source.byteSize (distinct runs)).spans source.byteSize :=
    tiles_partition fits
  have nonempty := tiles.start_lt_stop span mem
  obtain ⟨start, _, stop, _, rfl⟩ := mem_spans_partition mem
  obtain ⟨run, found, _, started, reached⟩ := mem_active.mp active
  exact ⟨run, by simpa [partition] using found, started, Nat.lt_of_lt_of_le nonempty reached⟩

theorem nodup_active (composed : compose source runs nesting = .ok c) {span : Span}
    (mem : span ∈ c.spans) : span.active.Nodup := by
  obtain ⟨_, rfl⟩ := compose_eq_ok_iff.mp composed
  obtain ⟨start, _, stop, _, rfl⟩ := mem_spans_partition mem
  exact active_nodup nesting (distinct runs) start stop

section OverTokens

variable (composed : compose source runs nesting = .ok c)
  (covers : ∀ run ∈ c.runs.toList, run.OverToken source)

include composed covers

theorem count_openings_eq_one {i : Nat} (bound : i < c.runs.size) : c.openings.count i = 1 := by
  have found : c.runs[i]? = some c.runs[i] := Array.getElem?_eq_getElem bound
  have mem : c.runs[i] ∈ c.runs.toList := Array.mem_toList_iff.mpr (Array.getElem_mem bound)
  exact (count_openings_eq_one_iff composed found).mpr (.inr (unsplit_of_overToken covers mem))

theorem openings_perm_range : c.openings.Perm (List.range c.runs.size) := by
  rw [List.perm_iff_count]
  intro i
  by_cases bound : i < c.runs.size
  · rw [count_openings_eq_one composed covers bound]
    exact (List.nodup_range.count.trans (if_pos (List.mem_range.mpr bound))).symm
  · have unopened : i ∉ c.openings :=
      fun mem => bound (lt_size_of_mem_openings (fits_of_compose composed) mem)
    have outside : i ∉ List.range c.runs.size := fun mem => bound (List.mem_range.mp mem)
    rw [List.count_eq_zero.mpr unopened, List.count_eq_zero.mpr outside]

theorem not_mem_markers {span : Span} (mem : span ∈ c.spans) (i : Nat) : i ∉ span.markers := by
  intro marker
  obtain ⟨_, rfl⟩ := compose_eq_ok_iff.mp composed
  rw [markers_of_mem_partition mem] at marker
  obtain ⟨run, found, empty, _⟩ := mem_markersAt.mp marker
  have nonempty := (covers run (List.mem_of_getElem? found)).start_lt_stop
  simp only [Run.isEmpty, beq_iff_eq] at empty
  omega

/-- Runs over tokens are opened once each. -/
theorem openedElements_perm (page : Path) :
    (openedElements (c.pieces source page)).Perm (c.runs.toList.map (·.element page)) := by
  have each : (List.range c.runs.size).map (c.element page) =
      c.runs.toList.map (·.element page) := by
    apply List.ext_getElem
    · simp
    · intro i bound _
      have inTable : i < c.runs.size := by simpa using bound
      simp [Composition.element, inTable]
  rw [openedElements_pieces (fits_of_compose composed), ← each]
  exact (openings_perm_range composed covers).map _

end OverTokens

end Composition

theorem overToken_of_mem_pageRuns {run : Run} (mem : run ∈ pageRuns index layout file source) :
    run.OverToken source := by
  rcases List.mem_append.mp mem with mem | mem
  · exact Highlight.overToken_of_mem_runs mem
  · exact CrossReference.overToken_of_mem_runs mem

theorem not_repeats_of_highlight {run other : Run} (mem : run ∈ Highlight.runs source)
    (otherMem : other ∈ CrossReference.runs index layout file source) :
    run.repeats other = false := by
  obtain ⟨className, styled, shown⟩ := Highlight.treatment_of_mem_runs mem
  have different : run.treatment.sameAs other.treatment = false := by
    rw [styled]
    cases treatment : other.treatment with
    | style otherName =>
      rw [CrossReference.treatment_of_mem_runs otherMem treatment]
      simpa [Treatment.sameAs] using shown
    | link destination => rfl
    | anchor id => rfl
  simp [Run.repeats, different]

theorem pairwise_not_repeats (index : Index) (layout : Layout) (file : Path) (source : Text) :
    (pageRuns index layout file source).Pairwise fun run later => run.repeats later = false := by
  refine List.pairwise_append.mpr ⟨?_, ?_, ?_⟩
  · refine (Highlight.pairwise_runs source).imp_of_mem ?_
    intro run later mem _ before
    exact (Highlight.overToken_of_mem_runs mem).not_repeats before
  · refine (CrossReference.pairwise_runs index layout file source).imp_of_mem ?_
    intro run later mem _ before
    exact (CrossReference.overToken_of_mem_runs mem).not_repeats before
  · intro run mem other otherMem
    exact not_repeats_of_highlight mem otherMem

/-- Runs over tokens fit their text, and as none repeats another the table holds them all. -/
theorem exists_compose_pageRuns (index : Index) (layout : Layout) (file : Path) (source : Text)
    (nesting : Nesting) :
    ∃ c, Composition.compose source (pageRuns index layout file source) nesting = .ok c ∧
      c.runs.toList = pageRuns index layout file source := by
  have fits : ∀ run ∈ pageRuns index layout file source, run.check source = .ok () :=
    fun run mem => (overToken_of_mem_pageRuns mem).check_eq_ok
  refine ⟨_, Composition.compose_eq_ok_iff.mpr ⟨fits, rfl⟩, ?_⟩
  exact Composition.distinct_eq_self (pairwise_not_repeats index layout file source)

/-- Only cross references are anchors. -/
theorem filterMap_id?_pageRuns (index : Index) (layout : Layout) (file : Path) (source : Text) :
    (pageRuns index layout file source).filterMap Run.id? =
      (CrossReference.runs index layout file source).filterMap Run.id? := by
  have none : (Highlight.runs source).filterMap Run.id? = [] := by
    rw [List.filterMap_eq_nil_iff]
    intro run mem
    obtain ⟨className, styled, _⟩ := Highlight.treatment_of_mem_runs mem
    simp [Run.id?, styled]
  rw [pageRuns, List.filterMap_append, none, List.nil_append]

def Run.isLink (run : Run) : Prop := ∃ destination, run.treatment = .link destination

theorem Run.isLink_of_name_element {run : Run} {page : Path}
    (name : (run.element page).name = "a".toList) : run.isLink := by
  obtain ⟨start, stop, treatment, tooltip⟩ := run
  cases treatment with
  | style className => simp [Run.element] at name
  | link destination => exact ⟨destination, rfl⟩
  | anchor id => simp [Run.element] at name

theorem not_isLink_of_highlight {run : Run} (mem : run ∈ Highlight.runs source) : ¬ run.isLink := by
  obtain ⟨className, styled, _⟩ := Highlight.treatment_of_mem_runs mem
  rintro ⟨destination, linked⟩
  rw [styled] at linked
  cases linked

/-- Each link of a page ends before the next starts. -/
theorem pairwise_links (index : Index) (layout : Layout) (file : Path) (source : Text) :
    (pageRuns index layout file source).Pairwise fun run later =>
      run.isLink → later.isLink → run.stop ≤ later.start := by
  refine List.pairwise_append.mpr ⟨?_, ?_, ?_⟩
  · refine (Highlight.pairwise_runs source).imp ?_
    exact fun before _ _ => before
  · refine (CrossReference.pairwise_runs index layout file source).imp ?_
    exact fun before _ _ => before
  · intro run mem other _ linked
    exact absurd linked (not_isLink_of_highlight mem)

/-- A text has a link over it once at most. -/
theorem eq_of_links_overlap {i j : Nat} {run other : Run}
    (found : (pageRuns index layout file source)[i]? = some run)
    (otherFound : (pageRuns index layout file source)[j]? = some other) (linked : run.isLink)
    (otherLinked : other.isLink) {n : Nat} (within : run.start ≤ n ∧ n < run.stop)
    (otherWithin : other.start ≤ n ∧ n < other.stop) : i = j := by
  have ordered := List.pairwise_iff_getElem.mp (pairwise_links index layout file source)
  obtain ⟨bound, rfl⟩ := List.getElem?_eq_some_iff.mp found
  obtain ⟨otherBound, rfl⟩ := List.getElem?_eq_some_iff.mp otherFound
  rcases Nat.lt_trichotomy i j with less | same | more
  · have := ordered i j bound otherBound less linked otherLinked
    omega
  · exact same
  · have := ordered j i otherBound bound more otherLinked linked
    omega

theorem covers_table (whole : c.runs.toList = pageRuns index layout file source) :
    ∀ run ∈ c.runs.toList, run.OverToken source := by
  intro run mem
  rw [whole] at mem
  exact overToken_of_mem_pageRuns mem

section Page

variable (composed : Composition.compose source (pageRuns index layout file source) nesting = .ok c)
  (whole : c.runs.toList = pageRuns index layout file source)

include composed whole

theorem exists_link_of_mem_active {span : Span} (mem : span ∈ c.spans) {i : Nat}
    (active : i ∈ span.active) {page : Path}
    (name : (c.element page i).name = "a".toList) :
    ∃ run, (pageRuns index layout file source)[i]? = some run ∧ run.isLink ∧
      run.start ≤ span.start ∧ span.start < run.stop := by
  obtain ⟨run, found, started, lasts⟩ := Composition.exists_of_mem_active composed mem active
  have linked : run.isLink := by
    apply Run.isLink_of_name_element
    rwa [Composition.element, found] at name
  rw [← Array.getElem?_toList, whole] at found
  exact ⟨run, found, linked, started, lasts⟩

/-- No link of a page is opened inside another. -/
theorem not_link_inside_link {page : Path} {placed : Element × List Element}
    (mem : placed ∈ elementsInside [] (c.pieces source page))
    (name : placed.1.name = "a".toList) : ∀ outer ∈ placed.2, outer.name ≠ "a".toList := by
  intro outer around outerName
  have fits := Composition.fits_of_compose composed
  rcases Composition.exists_of_mem_elementsInside fits mem with
    ⟨span, inSpans, placedIn⟩ | ⟨i, _, rfl⟩
  · rcases placedIn with ⟨before, i, after, split, rfl⟩ | ⟨i, marker, rfl⟩
    · obtain ⟨j, isBefore, rfl⟩ := List.mem_map.mp around
      have active : i ∈ span.active := by simp [split]
      have outerActive : j ∈ span.active := by simp [split, List.mem_reverse.mp isBefore]
      obtain ⟨run, found, linked, within⟩ :=
        exists_link_of_mem_active composed whole inSpans active name
      obtain ⟨other, otherFound, otherLinked, otherWithin⟩ :=
        exists_link_of_mem_active composed whole inSpans outerActive outerName
      obtain rfl := eq_of_links_overlap found otherFound linked otherLinked within otherWithin
      have once := Composition.nodup_active composed inSpans
      rw [split] at once
      exact (List.nodup_append.mp once).2.2 i (List.mem_reverse.mp isBefore) i
        List.mem_cons_self rfl
    · exact Composition.not_mem_markers composed (covers_table whole) inSpans i marker
  · cases around

/-- No link of a page stands inside another, as its tags are read. -/
theorem not_link_inside_link_body {page : Path} {placed : Text × List Text}
    (mem : placed ∈ surroundings (c.body source page)) (name : tagName placed.1 = "a".toList) :
    ∀ outer ∈ placed.2, tagName outer ≠ "a".toList := by
  have plain := c.pieces_plain source page
  rcases exists_of_mem_surroundings_numberLines plain mem with
    ⟨number, label⟩ | ⟨inner, isOpened, rfl⟩
  · rw [label, (lineElement_plain number).tagName_openingTag] at name
    exact absurd name (by simp [lineElement])
  · obtain ⟨innerPlain, outerPlain⟩ := plain_of_mem_elementsInside plain (by simp) isOpened
    rw [innerPlain.tagName_openingTag] at name
    intro outer isOuter
    obtain ⟨element, around, rfl⟩ := List.mem_map.mp isOuter
    rw [(outerPlain element around).tagName_openingTag]
    exact not_link_inside_link composed whole isOpened name element around

theorem openedElements_pageRuns (page : Path) :
    (openedElements (c.pieces source page)).Perm
      ((pageRuns index layout file source).map (·.element page)) := by
  have opened := Composition.openedElements_perm composed (covers_table whole) page
  rwa [whole] at opened

/-- The tags of a page open its line labels and each of its runs once. -/
theorem tags_body_perm (page : Path) :
    ((surroundings (c.body source page)).map Prod.fst).Perm
      ((List.range' 1 source.lineCount).map (lineElement · |>.openingTag) ++
        (pageRuns index layout file source).map (·.element page |>.openingTag)) := by
  have numbered := tags_numberLines (c.pieces_plain source page)
  have opened := (openedElements_pageRuns composed whole page).map Element.openingTag
  rw [Composition.characters_of_compose composed] at numbered
  rw [List.map_map] at opened
  exact numbered.trans (opened.append_left _)

/-- The ids of a page are those of its lines and of the declaration sites. -/
theorem ids_body_perm (page : Path) :
    (ids (c.body source page)).Perm
      ((List.range' 1 source.lineCount).map lineId ++
        (CrossReference.runs index layout file source).filterMap Run.id?) := by
  have numbered := ids_numberLines (c.pieces_plain source page)
  have opened := (openedElements_pageRuns composed whole page).flatMap_right Element.ids
  have ofRuns : ((pageRuns index layout file source).map (·.element page)).flatMap Element.ids =
      (CrossReference.runs index layout file source).filterMap Run.id? := by
    simp only [List.flatMap_map, Run.element_ids]
    rw [← List.filterMap_eq_flatMap_toList, filterMap_id?_pageRuns]
  rw [Composition.characters_of_compose composed] at numbered
  rw [ofRuns] at opened
  exact numbered.trans (opened.append_left _)

/-- With the declarations of one text alone, the ids of lines and of declaration sites are all
distinct. -/
theorem nodup_ids_body
    (sites : CrossReference.SitesIn source ((index.declarationsIn file).map Prod.snd))
    (page : Path) : (ids (c.body source page)).Nodup := by
  rw [(ids_body_perm composed whole page).nodup_iff]
  refine List.nodup_append.mpr ⟨?_, sites.nodup_ids, ?_⟩
  · refine List.Nodup.map ?_ (List.nodup_range' ..)
    intro m n same
    exact Text.ofNat_injective (List.append_cancel_left same)
  · intro lineName isLine name isAnchor same
    obtain ⟨number, _, rfl⟩ := List.mem_map.mp isLine
    obtain ⟨text, line, rfl⟩ := CrossReference.exists_anchorId isAnchor
    exact Declaration.anchorId_ne_lineId text line number same.symm

end Page

/-- The page of a file that was added to the index once, whatever other files were: each of its
runs is opened exactly once, all ids are distinct, and no link stands inside another. -/
theorem body_of_uniqueFile {files : List (Path × Text)} {added : Path}
    (unique : files.filter (·.1.sameAs file) = [(added, source)]) (layout : Layout)
    (nesting : Nesting) (page : Path) :
    ∃ c, Composition.compose source (pageRuns (Index.ofFiles files) layout file source) nesting =
        .ok c ∧
      c.runs.toList = pageRuns (Index.ofFiles files) layout file source ∧
      (∀ i < c.runs.size, c.openings.count i = 1) ∧
      ((surroundings (c.body source page)).map Prod.fst).Perm
        ((List.range' 1 source.lineCount).map (lineElement · |>.openingTag) ++
          (pageRuns (Index.ofFiles files) layout file source).map
            (·.element page |>.openingTag)) ∧
      (ids (c.body source page)).Nodup ∧
      ∀ placed ∈ surroundings (c.body source page), tagName placed.1 = "a".toList →
        ∀ outer ∈ placed.2, tagName outer ≠ "a".toList := by
  obtain ⟨c, composed, whole⟩ :=
    exists_compose_pageRuns (Index.ofFiles files) layout file source nesting
  have sites := CrossReference.sitesIn_of_unique unique
  refine ⟨c, composed, whole, ?_, tags_body_perm composed whole page,
    nodup_ids_body composed whole sites page, ?_⟩
  · intro i bound
    exact Composition.count_openings_eq_one composed (covers_table whole) bound
  · intro placed mem name
    exact not_link_inside_link_body composed whole mem name

/-- A module with a declaration, a name that means it and a name of another module. -/
def linkedFiles : List (Path × Text) :=
  [(⟨"/r/a.py".toList⟩, "def f(g):\n  return f(x)\nf = 1\n".toList),
    (⟨"/r/b.py".toList⟩, "x = 1\n".toList)]

theorem body_of_uniqueFile_linkedFiles :
    linkedFiles.filter (·.1.sameAs ⟨"/r//a.py".toList⟩) =
        [(⟨"/r/a.py".toList⟩, "def f(g):\n  return f(x)\nf = 1\n".toList)] ∧
      ∃ c, Composition.compose "def f(g):\n  return f(x)\nf = 1\n".toList
          (pageRuns (Index.ofFiles linkedFiles) ⟨⟨"/r".toList⟩, ⟨"/out".toList⟩⟩
            ⟨"/r//a.py".toList⟩ "def f(g):\n  return f(x)\nf = 1\n".toList) .linksInnermost =
          .ok c ∧
        (ids (c.body "def f(g):\n  return f(x)\nf = 1\n".toList
          ⟨"/out/a.py.html".toList⟩)).Nodup := by
  have unique : linkedFiles.filter (·.1.sameAs ⟨"/r//a.py".toList⟩) =
      [(⟨"/r/a.py".toList⟩, "def f(g):\n  return f(x)\nf = 1\n".toList)] := by
    cbv
  obtain ⟨c, composed, _, _, _, distinct, _⟩ :=
    body_of_uniqueFile unique ⟨⟨"/r".toList⟩, ⟨"/out".toList⟩⟩ .linksInnermost
      ⟨"/out/a.py.html".toList⟩
  exact ⟨unique, c, composed, distinct⟩

/-- A link leads to the page of an added file below the root and to the id of an anchor there,
which stands at the same text as the link. -/
theorem exists_anchor_of_link {files : List (Path × Text)}
    (apart : files.Pairwise fun added other => added.1.sameAs other.1 = false) {run : Run}
    (mem : run ∈ CrossReference.runs (Index.ofFiles files) layout file source)
    {destination : Destination} (linked : run.treatment = .link destination) :
    ∃ target text, (target, text) ∈ files ∧ target.startsWith layout.root = true ∧
      layout.pagePath target = .ok destination.page ∧
      ∃ id, destination.fragment = some id ∧
        (∃ anchor ∈ CrossReference.runs (Index.ofFiles files) layout target text,
          anchor.treatment = .anchor id ∧
            text.slice anchor.start anchor.stop = source.slice run.start run.stop) ∧
        ∀ nesting page, ∃ c,
          Composition.compose text (pageRuns (Index.ofFiles files) layout target text) nesting =
              .ok c ∧
            (ids (c.body text page)).count id = 1 := by
  obtain ⟨token, inTokens, identifier, start, stop, declaration, resolved, paged, fragment⟩ :=
    CrossReference.exists_of_link mem linked
  obtain ⟨named, known, text, inFiles, site, declares, stands⟩ :=
    CrossReference.exists_of_resolve resolved
  have unique := Index.filter_sameAs_eq apart inFiles
  have sites := CrossReference.sitesIn_of_unique unique
  have sameText : site.text = token.text := stands.name.symm.trans named
  have siteIdentifier : CrossReference.IsIdentifier site :=
    ⟨declares.isName, sameText ▸ identifier.not_keyword, sameText ▸ identifier.not_constant⟩
  obtain ⟨anchor, isRun, isAnchor, anchorStart, anchorStop⟩ :=
    sites.exists_anchor known stands declares.mem siteIdentifier
  refine ⟨declaration.file, text, inFiles, Layout.startsWith_of_pagePath paged, paged,
    declaration.anchor, fragment, ⟨anchor, isRun, isAnchor, ?_⟩, ?_⟩
  · rw [anchorStart, anchorStop, start, stop, (partOf_tokenize declares.mem).slice_eq,
      (partOf_tokenize inTokens).slice_eq, sameText]
  · intro nesting page
    obtain ⟨c, composed, whole⟩ :=
      exists_compose_pageRuns (Index.ofFiles files) layout declaration.file text nesting
    refine ⟨c, composed, ?_⟩
    have listed : declaration.anchor ∈ ids (c.body text page) := by
      rw [(ids_body_perm composed whole page).mem_iff]
      refine List.mem_append_right _ (List.mem_filterMap.mpr ⟨anchor, isRun, ?_⟩)
      simp [Run.id?, isAnchor]
    exact List.count_eq_one_of_mem (nodup_ids_body composed whole sites page) listed

theorem exists_anchor_of_link_linkedFiles :
    ∃ target text, (target, text) ∈ linkedFiles ∧
      Layout.pagePath ⟨⟨"/r".toList⟩, ⟨"/out".toList⟩⟩ target = .ok ⟨"/out/b.py.html".toList⟩ ∧
      ∃ anchor ∈ CrossReference.runs (Index.ofFiles linkedFiles)
          ⟨⟨"/r".toList⟩, ⟨"/out".toList⟩⟩ target text,
        anchor.treatment = .anchor "decl-x-1".toList ∧
          text.slice anchor.start anchor.stop = "x".toList := by
  have apart : linkedFiles.Pairwise fun added other => added.1.sameAs other.1 = false := by
    decide +kernel
  have linking : CrossReference.runs (Index.ofFiles linkedFiles)
        ⟨⟨"/r".toList⟩, ⟨"/out".toList⟩⟩ ⟨"/r/c.py".toList⟩ "x".toList =
      [⟨0, 1, .link ⟨⟨"/out/b.py.html".toList⟩, some "decl-x-1".toList⟩,
        some "var x (b.py:1)".toList⟩] := by
    decide +kernel
  have mem := List.mem_singleton_self (Run.mk 0 1
    (.link ⟨⟨"/out/b.py.html".toList⟩, some "decl-x-1".toList⟩) (some "var x (b.py:1)".toList))
  rw [← linking] at mem
  obtain ⟨target, text, inFiles, _, paged, id, fragment, ⟨anchor, isRun, isAnchor, sameText⟩, _⟩ :=
    exists_anchor_of_link apart mem rfl
  obtain rfl := Option.some.inj fragment
  exact ⟨target, text, inFiles, paged, anchor, isRun, isAnchor, sameText⟩

end Hyperlisting
