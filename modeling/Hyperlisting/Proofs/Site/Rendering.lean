import Hyperlisting.Outline
import Hyperlisting.Proofs.Listing
import Hyperlisting.Site.Batch

/-! The page of a source text in a listing. Its runs always compose, so it fails only where the
layout has no path for it. -/

namespace Hyperlisting

variable {index : Index} {layout : Layout} {file : Path} {source : Text} {nesting : Nesting}
  {failure : Failure} {tree : FileTree} {output : Path}

namespace Batch

/-- The batch of a listing: highlights, cross references and the outline of an index. -/
def listing (index : Index) (layout : Layout) (nesting : Nesting) : Batch where
  layout
  producers := [Highlight.producer, CrossReference.producer index layout]
  outline := Outline.panel index
  nesting

theorem annotate_listing (index : Index) (layout : Layout) (nesting : Nesting) (file : Path)
    (source : Text) : ((listing index layout nesting).annotate file source).flatMap Prod.snd =
      pageRuns index layout file source := by
  change Highlight.runs source ++ (CrossReference.runs index layout file source ++ []) = _
  rw [List.append_nil, pageRuns]

/-- The runs of a page fit their source and repeat nothing, so what is rendered is the partition by
them all. -/
theorem page_renderSource (index : Index) (layout : Layout) (nesting : Nesting) (file : Path)
    (source : Text) : ((listing index layout nesting).renderSource file source).page = (do
      let output ← layout.pagePath file
      layout.assemble file
        ((Composition.partition nesting source.byteSize
          (pageRuns index layout file source)).body source output)
        (Outline.panel index file)) := by
  have fits : ∀ run ∈ pageRuns index layout file source, run.check source = .ok () :=
    fun run mem => (overToken_of_mem_pageRuns mem).check_eq_ok
  have whole := Composition.distinct_eq_self (pairwise_not_repeats index layout file source)
  have composed : Composition.compose source (pageRuns index layout file source) nesting =
      .ok (Composition.partition nesting source.byteSize
        (pageRuns index layout file source)) :=
    Composition.compose_eq_ok_iff.mpr ⟨fits, by rw [whole]⟩
  change (listing index layout nesting).renderRuns file source _ = _
  rw [annotate_listing, renderRuns]
  change ((Composition.compose source (pageRuns index layout file source) nesting).mapError _ >>=
    _) = _
  rw [composed]
  rfl

/-- The page of a source text fails only where it has no path. -/
theorem failure_of_renderSource
    (fails : ((listing index layout nesting).renderSource file source).page = .error failure) :
    layout.pagePath file = .error failure := by
  rw [page_renderSource] at fails
  cases paged : layout.pagePath file with
  | error cause =>
    rw [paged] at fails
    exact congrArg Except.error (show cause = failure from Except.error.inj fails)
  | ok output =>
    rw [paged, ok_bind, Layout.assemble_eq_ok paged] at fails
    cases fails

/-- A file that can be read has a page if it has a path. -/
theorem exists_renderFile (index : Index) (nesting : Nesting)
    (read : tree.readText file = .ok source) (paged : layout.pagePath file = .ok output) :
    ∃ html, ((listing index layout nesting).renderFile tree file).page =
      .ok ⟨file, output, html⟩ := by
  rw [renderFile, read]
  dsimp only
  rw [page_renderSource, paged, ok_bind]
  exact ⟨_, Layout.assemble_eq_ok paged _ _⟩

theorem isRecoverable_of_renderFile (paged : layout.pagePath file = .ok output)
    (fails : ((listing index layout nesting).renderFile tree file).page = .error failure) :
    failure.isRecoverable = true := by
  cases read : tree.readText file with
  | error cause =>
    rw [renderFile, read] at fails
    obtain rfl := Except.error.inj fails
    rfl
  | ok source =>
    obtain ⟨html, rendered⟩ := exists_renderFile index nesting read paged
    rw [rendered] at fails
    cases fails

end Batch

end Hyperlisting
