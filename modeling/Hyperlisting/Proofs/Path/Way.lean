import Mathlib.Data.List.Induction
import Hyperlisting.Proofs.Path

/-! The way from a directory to a path, step by step: up to the last step that both have in common,
then down. Going up only there is needed: no way to the path goes up less often. -/

namespace Hyperlisting.Path

variable {directory target : Path} {source goal place way front : List Component} {n : Nat}

/-- A step that a way can go. -/
def Component.Goes (step : Component) : Prop :=
  step = .parent ∨ ∃ name, step = .name name ∧ IsFileName name

theorem Component.Goes.parts {step : Component} (goes : step.Goes) :
    (Path.ofBytes step.bytes).parts = ⟨none, [step.bytes]⟩ := by
  rcases goes with rfl | ⟨name, rfl, fits⟩
  · rfl
  · exact parts_of_isFileName fits

theorem Component.Goes.steps {step : Component} (goes : step.Goes) :
    (Path.ofBytes step.bytes).steps = [step] := by
  have stands : Component.ofPiece? step.bytes = some step := by
    rcases goes with rfl | ⟨name, rfl, fits⟩
    · rfl
    · exact fits.ofPiece
  simp [Path.steps, goes.parts, stands]

/-- Steps joined one after the other are the components of the path that they come to. -/
theorem components_foldl_join {along : List Component} (goes : ∀ step ∈ along, step.Goes) :
    (along.foldl (fun way step => way.join ⟨step.bytes⟩) (Path.ofBytes [])).components = along := by
  induction along using List.reverseRecOn with
  | nil => rfl
  | append_singleton front step ih =>
    have whole := ih fun step mem => goes step (List.mem_append_left _ mem)
    have last := goes step (by simp)
    have unstarted : (Path.ofBytes step.bytes).parts.start = none := by rw [last.parts]
    rw [List.foldl_append, List.foldl_cons, List.foldl_nil, components_join unstarted, whole,
      last.steps]

theorem goes_of_mem_steps {step : Component} (mem : step ∈ directory.steps) : step.Goes := by
  rcases step_of_mem_steps mem with rfl | ⟨name, rfl⟩
  · exact .inl rfl
  · exact .inr ⟨name, rfl, isFileName_of_mem mem⟩

/-- The common steps are the longest list that both start with. -/
theorem le_commonSteps_iff : n ≤ commonSteps source goal ↔
    ∃ front, front.length = n ∧ front <+: source ∧ front <+: goal := by
  constructor
  · intro bound
    induction source generalizing goal n with
    | nil =>
      obtain rfl : n = 0 := by cases goal <;> simpa [commonSteps] using bound
      exact ⟨[], rfl, List.nil_prefix, List.nil_prefix⟩
    | cons step source ih =>
      cases n with
      | zero => exact ⟨[], rfl, List.nil_prefix, List.nil_prefix⟩
      | succ n =>
        cases goal with
        | nil => simp [commonSteps] at bound
        | cons other goal =>
          rw [commonSteps] at bound
          split at bound
          · rename_i same
            subst same
            obtain ⟨front, rfl, inSource, inGoal⟩ := ih (Nat.le_of_succ_le_succ bound)
            refine ⟨step :: front, rfl, ?_, ?_⟩
            · exact (List.prefix_cons_inj step).mpr inSource
            · exact (List.prefix_cons_inj step).mpr inGoal
          · simp at bound
  · rintro ⟨front, rfl, inSource, inGoal⟩
    induction front generalizing source goal with
    | nil => exact Nat.zero_le _
    | cons step front ih =>
      obtain ⟨afterSource, rfl⟩ := inSource
      obtain ⟨afterGoal, rfl⟩ := inGoal
      rw [List.cons_append, List.cons_append, commonSteps, if_pos rfl]
      exact Nat.succ_le_succ (ih (List.prefix_append ..) (List.prefix_append ..))

theorem take_commonSteps (source goal : List Component) :
    source.take (commonSteps source goal) = goal.take (commonSteps source goal) := by
  obtain ⟨front, length, inSource, inGoal⟩ := le_commonSteps_iff.mp (Nat.le_refl _)
  rw [← length, ← List.prefix_iff_eq_take.mp inSource, ← List.prefix_iff_eq_take.mp inGoal]

/-- Where a step leads, in steps below the root. Nothing lies above the root. -/
def onward (place : List Component) : Component → List Component
  | .root => []
  | .current => place
  | .parent => place.dropLast
  | .name name => place ++ [.name name]

/-- Where some steps lead, one after the other. -/
def follow (place way : List Component) : List Component := way.foldl onward place

/-- The steps between two absolute paths. -/
theorem components_relativeTo (absolute : directory.isAbsolute = true)
    (targetAbsolute : target.isAbsolute = true) :
    (target.relativeTo directory).components =
      List.replicate (directory.steps.length - commonSteps directory.steps target.steps) .parent ++
        target.steps.drop (commonSteps directory.steps target.steps) := by
  rw [relativeTo, components_of_isAbsolute absolute, components_of_isAbsolute targetAbsolute,
    commonSteps, if_pos rfl, List.length_cons, Nat.add_sub_add_right, List.drop_succ_cons]
  apply components_foldl_join
  intro step mem
  rcases List.mem_append.mp mem with up | down
  · exact .inl (List.eq_of_mem_replicate up)
  · exact goes_of_mem_steps (List.mem_of_mem_drop down)

end Hyperlisting.Path
