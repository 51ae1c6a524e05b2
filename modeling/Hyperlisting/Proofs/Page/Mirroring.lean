import Hyperlisting.Proofs.Page

/-! Pages lie below the output directory as their sources lie below the root. However a path is
spelled, the steps to the page are those to the source, with the suffix behind the last, so no two
sources have one page. -/

namespace Hyperlisting.Layout

variable {layout : Layout} {source output : Path} {name : OsText} {front : List Path.Component}

/-- The steps from the root to a source below it. -/
def stepsBelow (layout : Layout) (source : Path) : List Path.Component :=
  source.components.drop layout.root.components.length

/-- Sources without a page: those that are not below the root, and those that end on a way up. -/
def Excludes (layout : Layout) (source : Path) : Prop :=
  source.startsWith layout.root = false ∨ layout.stepsBelow source = [] ∨
    (layout.stepsBelow source).getLast? = some .parent

instance (layout : Layout) (source : Path) : Decidable (layout.Excludes source) :=
  inferInstanceAs (Decidable (_ ∨ _ ∨ _))

theorem components_eq_append (below : source.startsWith layout.root = true) :
    source.components = layout.root.components ++ layout.stepsBelow source := by
  obtain ⟨after, joined⟩ := Path.startsWith_iff.mp below
  rw [stepsBelow, ← joined, List.drop_left]

/-- Behind the root a path goes up or to a name. -/
theorem step_of_mem_stepsBelow (rooted : layout.root.isAbsolute = true)
    (below : source.startsWith layout.root = true) {step : Path.Component}
    (mem : step ∈ layout.stepsBelow source) : step = .parent ∨ ∃ text, step = .name text := by
  have whole := components_eq_append below
  have absolute : source.isAbsolute = true := by
    rw [Path.isAbsolute_iff_components, whole, Path.components_of_isAbsolute rooted]
    rfl
  rw [Path.components_of_isAbsolute absolute, Path.components_of_isAbsolute rooted] at whole
  have steps : source.steps = layout.root.steps ++ layout.stepsBelow source :=
    (List.cons.inj whole).2
  have mem : step ∈ source.steps := by
    rw [steps]
    exact List.mem_append_right _ mem
  exact Path.step_of_mem_steps mem

theorem components_pagePath (rooted : layout.root.isAbsolute = true)
    (paged : layout.pagePath source = .ok output) :
    ∃ front name, layout.stepsBelow source = front ++ [.name name] ∧
      output.components =
        layout.output.components ++ (front ++ [.name (name ++ pageSuffix)]) := by
  obtain ⟨relative, name, found, named, rfl⟩ := pagePath_cases paged
  obtain ⟨front, steps⟩ := Path.exists_steps_of_fileName? named
  have nonempty : layout.root.components ≠ [] := by
    rw [Path.components_of_isAbsolute rooted]
    exact List.cons_ne_nil _ _
  have unstarted := Path.start_below? found nonempty
  have below : layout.stepsBelow source = front ++ [.name name] := by
    rw [stepsBelow, ← Path.components_below? found, Path.components_eq, unstarted, steps]
    rfl
  have joined : (layout.output.join relative).components =
      layout.output.components ++ (front ++ [.name name]) := by
    rw [Path.components_join unstarted, steps]
  have joinedName : (layout.output.join relative).fileName? = some name := by
    rw [Path.fileName?_eq_some_iff, joined, ← List.append_assoc, List.getLast?_concat]
  have fits := isFileName_append_pageSuffix (Path.isFileName_of_fileName? named)
  refine ⟨front, name, below, ?_⟩
  rw [Path.components_withFileName joinedName fits, joined, ← List.append_assoc,
    List.dropLast_concat, List.append_assoc]

/-- A source that goes from the root to a name has a page. -/
theorem exists_pagePath_of_stepsBelow (below : source.startsWith layout.root = true)
    (steps : layout.stepsBelow source = front ++ [.name name]) :
    ∃ output, layout.pagePath source = .ok output := by
  have whole := components_eq_append below
  rw [steps] at whole
  have named : source.fileName? = some name := by
    rw [Path.fileName?_eq_some_iff, whole, ← List.append_assoc, List.getLast?_concat]
  apply exists_pagePath (Path.startsWith_iff.mp below) _ named
  intro same
  have length := congrArg List.length (same.trans whole)
  simp at length

theorem excludes_or_exists_name (rooted : layout.root.isAbsolute = true) (source : Path) :
    layout.Excludes source ∨ source.startsWith layout.root = true ∧
      ∃ front name, layout.stepsBelow source = front ++ [.name name] := by
  cases below : source.startsWith layout.root with
  | false => exact .inl (.inl below)
  | true =>
    rcases List.eq_nil_or_concat (layout.stepsBelow source) with none | ⟨front, last, steps⟩
    · exact .inl (.inr (.inl none))
    rw [List.concat_eq_append] at steps
    have mem : last ∈ layout.stepsBelow source := by simp [steps]
    rcases step_of_mem_stepsBelow rooted below mem with rfl | ⟨name, rfl⟩
    · exact .inl (.inr (.inr (by rw [steps, List.getLast?_concat])))
    · exact .inr ⟨rfl, front, name, steps⟩

theorem not_excludes (below : source.startsWith layout.root = true)
    (steps : layout.stepsBelow source = front ++ [.name name]) : ¬ layout.Excludes source := by
  rintro (outside | none | up)
  · simp [below] at outside
  · simp [steps] at none
  · simp [steps] at up

/-- A source has no page exactly if it lies outside the root, is the root or ends on a way up, and
that is the fault. Any other has its page where it lies itself, with the suffix behind its name; and
pages that lie at one place are those of one source. -/
theorem pagePath_mirrors (rooted : layout.root.isAbsolute = true) (source : Path) :
    (layout.pagePath source = .error (.outsideRoot source layout.root) ↔
        layout.Excludes source) ∧
      (¬ layout.Excludes source → ∃ output front name, layout.pagePath source = .ok output ∧
        layout.stepsBelow source = front ++ [.name name] ∧
        output.startsWith layout.output = true ∧
        output.components.drop layout.output.components.length =
          front ++ [.name (name ++ pageSuffix)]) ∧
      ∀ other output otherOutput, layout.pagePath source = .ok output →
        layout.pagePath other = .ok otherOutput → output.sameAs otherOutput = true →
          source.sameAs other = true := by
  refine ⟨?_, ?_, ?_⟩
  · constructor
    · intro fails
      rcases excludes_or_exists_name rooted source with excluded | ⟨below, front, name, steps⟩
      · exact excluded
      · obtain ⟨output, paged⟩ := exists_pagePath_of_stepsBelow below steps
        cases paged.symm.trans fails
    · intro excluded
      cases paged : layout.pagePath source with
      | error failure => rw [failure_of_pagePath paged]
      | ok output =>
        obtain ⟨front, name, steps, _⟩ := components_pagePath rooted paged
        exact absurd excluded (not_excludes (startsWith_of_pagePath paged) steps)
  · intro included
    obtain ⟨below, front, name, steps⟩ :=
      (excludes_or_exists_name rooted source).resolve_left included
    obtain ⟨output, paged⟩ := exists_pagePath_of_stepsBelow below steps
    obtain ⟨front', name', steps', whole⟩ := components_pagePath rooted paged
    refine ⟨output, front', name', paged, steps', ?_, ?_⟩
    · rw [Path.startsWith_iff, whole]
      exact List.prefix_append ..
    · rw [whole, List.drop_left]
  · intro other output otherOutput paged otherPaged same
    obtain ⟨front, name, steps, whole⟩ := components_pagePath rooted paged
    obtain ⟨otherFront, otherName, otherSteps, otherWhole⟩ := components_pagePath rooted otherPaged
    rw [Path.sameAs_iff, whole, otherWhole, List.append_right_inj] at same
    obtain ⟨rfl, last⟩ := List.append_inj' same rfl
    have named : name = otherName := by simpa using last
    rw [Path.sameAs_iff, components_eq_append (startsWith_of_pagePath paged),
      components_eq_append (startsWith_of_pagePath otherPaged), steps, otherSteps, named]

/-- A layout whose paths are spelled with idle pieces. -/
def spelledLayout : Layout := ⟨⟨"/r/.".toList⟩, ⟨"out//".toList⟩⟩

theorem pagePath_mirrors_spellings :
    spelledLayout.root.isAbsolute = true ∧
      spelledLayout.pagePath ⟨"/r/sub/../".toList⟩ =
        .error (.outsideRoot ⟨"/r/sub/../".toList⟩ ⟨"/r/.".toList⟩) ∧
      ¬ spelledLayout.Excludes ⟨"//r/./sub//a.py/".toList⟩ ∧
      ∃ output, spelledLayout.pagePath ⟨"//r/./sub//a.py/".toList⟩ = .ok output ∧
        output.startsWith ⟨"out//".toList⟩ = true ∧
        output.components.drop 1 = [.name "sub".toList, .name "a.py.html".toList] ∧
        ∀ other, spelledLayout.pagePath other = .ok output →
          (Path.mk "//r/./sub//a.py/".toList).sameAs other = true := by
  have rooted : spelledLayout.root.isAbsolute = true := rfl
  have up : spelledLayout.Excludes ⟨"/r/sub/../".toList⟩ := by decide +kernel
  have included : ¬ spelledLayout.Excludes ⟨"//r/./sub//a.py/".toList⟩ := by decide +kernel
  have steps : spelledLayout.stepsBelow ⟨"//r/./sub//a.py/".toList⟩ =
      [.name "sub".toList] ++ [.name "a.py".toList] := by
    decide +kernel
  obtain ⟨fault, _, _⟩ := pagePath_mirrors rooted ⟨"/r/sub/../".toList⟩
  obtain ⟨_, mirrored, unique⟩ := pagePath_mirrors rooted ⟨"//r/./sub//a.py/".toList⟩
  obtain ⟨output, front, name, paged, same, below, whole⟩ := mirrored included
  obtain ⟨rfl, last⟩ := List.append_inj' (same.symm.trans steps) rfl
  obtain rfl : name = "a.py".toList := by simpa using last
  refine ⟨rooted, fault.mpr up, included, output, paged, below, whole, ?_⟩
  intro other otherPaged
  exact unique other output output paged otherPaged (Path.sameAs_iff.mpr rfl)

end Hyperlisting.Layout
