import Mathlib.Data.List.Permutation
import Hyperlisting.Page.Document
import Hyperlisting.Proofs.Path

/-! Pages and where they lie: a page lies where the layout puts it, below the root only, and any
body and outline make a document. -/

namespace Hyperlisting

variable {layout : Layout} {source output : Path} {body outline : Text}

theorem exists_of_bind_eq_ok {ε α β : Type} {first : Except ε α} {next : α → Except ε β} {b : β}
    (succeeds : first >>= next = .ok b) : ∃ a, first = .ok a ∧ next a = .ok b := by
  cases first with
  | error fault => cases succeeds
  | ok a => exact ⟨a, rfl, succeeds⟩

/-- To be rewritten with: where the two sides are compared by unfolding, the document is computed. -/
theorem ok_bind {ε α β : Type} (a : α) (next : α → Except ε β) : .ok a >>= next = next a := rfl

namespace Layout

/-- Only sources at or below the root have a page. -/
theorem startsWith_of_pagePath (paged : layout.pagePath source = .ok output) :
    source.startsWith layout.root = true := by
  unfold pagePath Path.below? at paged
  cases below : source.startsWith layout.root with
  | true => rfl
  | false => simp [below] at paged

/-- A source without a page lies outside the root. -/
theorem failure_of_pagePath {failure : Failure} (fails : layout.pagePath source = .error failure) :
    failure = .outsideRoot source layout.root := by
  unfold pagePath at fails
  split at fails
  · exact (Except.error.inj fails).symm
  · split at fails
    · exact (Except.error.inj fails).symm
    · cases fails

theorem pagePath_of_assemble {page : Page}
    (assembled : layout.assemble source body outline = .ok page) :
    layout.pagePath source = .ok page.output := by
  obtain ⟨output, paged, assembled⟩ := exists_of_bind_eq_ok assembled
  obtain ⟨html, _, assembled⟩ := exists_of_bind_eq_ok assembled
  cases assembled
  exact paged

theorem isFileName_append_pageSuffix {name : OsText} (fits : Path.IsFileName name) :
    Path.IsFileName (name ++ pageSuffix) where
  ofPiece := by
    have shown : 'h'.toUInt8 ∈ name ++ pageSuffix := List.mem_append_right _ (by decide)
    exact Path.ofPiece?_of_mem shown (by decide)
  slashless := by
    rw [List.mem_append, not_or]
    exact ⟨fits.slashless, by decide⟩

/-- A source with a name below the root has a page path. -/
theorem exists_pagePath {name : OsText} (isPrefix : layout.root.components <+: source.components)
    (below : layout.root.components ≠ source.components) (named : source.fileName? = some name) :
    ∃ output, layout.pagePath source = .ok output := by
  obtain ⟨relative, found⟩ : ∃ relative, source.below? layout.root = some relative :=
    ⟨_, Path.below?_eq isPrefix⟩
  have named : relative.fileName? = some name := by
    obtain ⟨after, joined⟩ := isPrefix
    rw [← joined] at below
    rw [Path.fileName?_eq_some_iff] at named ⊢
    rw [Path.components_below? found, ← joined, List.drop_left]
    rwa [← joined, List.getLast?_append_of_ne_nil _ (by simpa using below)] at named
  exact ⟨_, by rw [pagePath, found]; dsimp only; rw [named]⟩

/-- A page path is the path to a name. -/
theorem pagePath_cases (paged : layout.pagePath source = .ok output) :
    ∃ relative name, source.below? layout.root = some relative ∧
      relative.fileName? = some name ∧
      output = (layout.output.join relative).withFileName (name ++ pageSuffix) := by
  rw [pagePath] at paged
  split at paged
  · cases paged
  · rename_i relative found
    split at paged
    · cases paged
    · rename_i name named
      exact ⟨relative, name, found, named, (Except.ok.inj paged).symm⟩

/-- The page of a source lies below the output directory where the source lies below the root. -/
theorem steps_pagePath {relative : Path} (found : source.below? layout.root = some relative)
    (isRelative : relative.isAbsolute = false) (paged : layout.pagePath source = .ok output) :
    output.isAbsolute = layout.output.isAbsolute ∧
      ∃ name, relative.fileName? = some name ∧
        output.steps =
          layout.output.steps ++ (relative.steps.dropLast ++ [.name (name ++ pageSuffix)]) := by
  obtain ⟨relative', name, found', named, rfl⟩ := pagePath_cases paged
  obtain rfl := Option.some.inj (found.symm.trans found')
  obtain ⟨front, steps⟩ := Path.exists_steps_of_fileName? named
  have joined : (layout.output.join relative).steps =
      layout.output.steps ++ front ++ [.name name] := by
    rw [Path.steps_join isRelative, steps, List.append_assoc]
  have joinedName := Path.fileName?_of_steps joined
  have fits := isFileName_append_pageSuffix (Path.isFileName_of_fileName? named)
  constructor
  · rw [Path.isAbsolute_withFileName joinedName fits, Path.isAbsolute_join isRelative]
  · exact ⟨name, named, by rw [Path.steps_withFileName joinedName fits, joined, steps]; simp⟩

end Layout

theorem Page.placeholders_document :
    Page.document.placeholders =
      ["body", "outline", "script", "style", "title"].map String.toList := by
  have named : Page.document.parts.filterMap Template.Part.name? =
      ["title".toList, "style".toList, "script".toList, "outline".toList, "body".toList] := by
    decide +kernel
  rw [Template.placeholders, named]
  cbv

/-- The document has a place for each part of a page, and no other. -/
theorem Page.fill_document (title style script outline body : Template.Slot) :
    Page.document.fill [("title".toList, title), ("style".toList, style),
        ("script".toList, script), ("outline".toList, outline), ("body".toList, body)] =
      .ok (Page.document.parts.flatMap (Template.Part.print [("title".toList, title),
        ("style".toList, style), ("script".toList, script), ("outline".toList, outline),
        ("body".toList, body)])) := by
  rw [Template.fill, Page.placeholders_document]
  rfl

/-- A source that has a page path has a page, whatever its body and outline. -/
theorem Layout.assemble_eq_ok (paged : layout.pagePath source = .ok output)
    (body outline : Text) :
    layout.assemble source body outline = .ok
      { source, output
        html := Page.document.parts.flatMap (Template.Part.print [
          ("title".toList, .text source.text), ("style".toList, .markup Page.styleSheet),
          ("script".toList, .markup Page.script), ("outline".toList, .markup outline),
          ("body".toList, .markup body)]) } := by
  rw [Layout.assemble, paged, Page.fill_document]
  rfl

end Hyperlisting
