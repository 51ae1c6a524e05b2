import Hyperlisting.Proofs.Composition.Fidelity

/-! What composing refuses and what it vouches for: it fails with the fault of the first run that
does not fit the text, and otherwise every slice and every index that writing takes is there. -/

namespace Hyperlisting

variable {source : Text} {run : Run} {runs : List Run} {nesting : Nesting} {c : Composition}
variable {fault : Run.Fault}

namespace Run

/-- The run starts after it ends, ends past the text, or cuts a character. -/
def Malformed (source : Text) (run : Run) : Prop :=
  run.stop < run.start ∨ source.byteSize < run.stop ∨
    source.InsideCharacter run.start ∨ source.InsideCharacter run.stop

/-- The faults of a run, each where the ones above it are absent. -/
inductive Breaks (source : Text) (run : Run) : Fault → Prop
  | inverted (inverted : run.stop < run.start) :
    Breaks source run (.inverted run.start run.stop)
  | outOfBounds (ordered : run.start ≤ run.stop) (beyond : source.byteSize < run.stop) :
    Breaks source run (.outOfBounds run.stop source.byteSize)
  | start (ordered : run.start ≤ run.stop) (bounded : run.stop ≤ source.byteSize)
    (inside : source.InsideCharacter run.start) :
    Breaks source run (.insideCharacter run.start)
  | stop (ordered : run.start ≤ run.stop) (bounded : run.stop ≤ source.byteSize)
    (starts : ¬source.InsideCharacter run.start) (inside : source.InsideCharacter run.stop) :
    Breaks source run (.insideCharacter run.stop)

/-- The fault of the first malformed run, in the order of the list. -/
def FirstFault (source : Text) (runs : List Run) (fault : Fault) : Prop :=
  ∃ before run after, runs = before ++ run :: after ∧
    (∀ earlier ∈ before, ¬earlier.Malformed source) ∧ run.Breaks source fault

theorem check_eq_error_iff : run.check source = .error fault ↔ run.Breaks source fault := by
  have cut {n : Nat} (bound : n ≤ source.byteSize) :
      (!source.isBoundary n) = true ↔ source.InsideCharacter n := by
    rw [Bool.not_eq_true', Text.insideCharacter_iff bound]
  unfold check checkWithin
  constructor
  · intro failed
    split at failed
    · cases failed
      exact .inverted ‹_›
    split at failed
    · cases failed
      exact .outOfBounds (Nat.le_of_not_lt ‹_›) ‹_›
    have ordered : run.start ≤ run.stop := Nat.le_of_not_lt ‹_›
    have bounded : run.stop ≤ source.byteSize := Nat.le_of_not_lt ‹_›
    have starts := cut (Nat.le_trans ordered bounded)
    split at failed
    · cases failed
      exact .start ordered bounded (starts.mp ‹_›)
    split at failed
    · cases failed
      exact .stop ordered bounded (mt starts.mpr ‹_›) ((cut bounded).mp ‹_›)
    · cases failed
  · intro breaks
    cases breaks with
    | inverted inverted => rw [if_pos inverted]
    | outOfBounds ordered beyond => rw [if_neg (Nat.not_lt.mpr ordered), if_pos beyond]
    | start ordered bounded inside =>
      rw [if_neg (Nat.not_lt.mpr ordered), if_neg (Nat.not_lt.mpr bounded),
        if_pos ((cut (Nat.le_trans ordered bounded)).mpr inside)]
    | stop ordered bounded starts inside =>
      rw [if_neg (Nat.not_lt.mpr ordered), if_neg (Nat.not_lt.mpr bounded),
        if_neg (mt (cut (Nat.le_trans ordered bounded)).mp starts),
        if_pos ((cut bounded).mpr inside)]

/-- A run is refused exactly when it is malformed. -/
theorem check_eq_ok_iff_not_malformed : run.check source = .ok () ↔ ¬run.Malformed source := by
  rw [check_eq_ok_iff, Malformed, not_or, not_or, not_or, Nat.not_lt, Nat.not_lt]
  refine and_congr_right fun ordered => and_congr_right fun bounded => and_congr ?_ ?_
  · rw [Text.insideCharacter_iff (Nat.le_trans ordered bounded), Bool.not_eq_false]
  · rw [Text.insideCharacter_iff bounded, Bool.not_eq_false]

theorem checkAll_eq_error_iff :
    checkAll source runs = .error fault ↔ FirstFault source runs fault := by
  rw [checkAll_eq_forM, Lists.forM_eq_error_iff]
  simp only [check_eq_ok_iff_not_malformed, check_eq_error_iff, FirstFault]

end Run

namespace Composition

open Run

theorem compose_eq_error_iff :
    compose source runs nesting = .error fault ↔ FirstFault source runs fault := by
  rw [← checkAll_eq_error_iff, compose]
  cases checked : checkAll source runs with
  | error found => simp [bind, Except.bind]
  | ok => simp [bind, Except.bind, pure, Except.pure]

theorem exists_compose_eq_error_iff :
    (∃ fault, compose source runs nesting = .error fault) ↔ ∃ run ∈ runs, run.Malformed source := by
  constructor
  · rintro ⟨fault, failed⟩
    by_contra sound
    simp only [not_exists, not_and, ← check_eq_ok_iff_not_malformed] at sound
    rw [compose_eq_ok_iff.mpr ⟨sound, rfl⟩] at failed
    cases failed
  · rintro ⟨run, mem, malformed⟩
    cases composed : compose source runs nesting with
    | error fault => exact ⟨fault, rfl⟩
    | ok c =>
      have fits := (compose_eq_ok_iff.mp composed).1 run mem
      exact absurd malformed (check_eq_ok_iff_not_malformed.mp fits)

/-- What is written of a span stands in the text between its ends. -/
theorem Fits.exists_eq_append (fits : c.Fits source) :
    ∀ cut ∈ c.spanTexts source, ∃ before after : Text, source = before ++ (cut.2 ++ after) ∧
      before.byteSize = cut.1.start ∧ (before ++ cut.2).byteSize = cut.1.stop := by
  intro cut mem
  rw [fits.spanTexts_eq] at mem
  obtain ⟨span, spanMem, rfl⟩ := List.mem_map.mp mem
  obtain ⟨ordered, starts, stops⟩ := fits.spans span spanMem
  exact Text.exists_slice_eq ordered starts stops

/-- A malformed run is never written and a sound one never does harm: composing fails exactly when a
run is malformed, with the fault of the first such run, and what it returns names only runs of its
table and cuts the text only where characters end. -/
theorem compose_fails_or_fits (source : Text) (runs : List Run) (nesting : Nesting) :
    ((∃ fault, compose source runs nesting = .error fault) ↔
        ∃ run ∈ runs, run.Malformed source) ∧
      (∀ fault, compose source runs nesting = .error fault ↔ FirstFault source runs fault) ∧
      ∀ c, compose source runs nesting = .ok c → c.Fits source ∧
        ∀ cut ∈ c.spanTexts source, ∃ before after : Text, source = before ++ (cut.2 ++ after) ∧
          before.byteSize = cut.1.start ∧ (before ++ cut.2).byteSize = cut.1.stop := by
  refine ⟨exists_compose_eq_error_iff, fun fault => compose_eq_error_iff, ?_⟩
  intro c composed
  have fits := fits_of_compose composed
  exact ⟨fits, fits.exists_eq_append⟩

/-- The second run is the first that is malformed, and it is refused for its order although its end
cuts a character as well. -/
example : compose "aé".toList
    [⟨0, 1, .anchor "a".toList, none⟩, ⟨3, 2, .anchor "b".toList, none⟩,
      ⟨0, 9, .anchor "c".toList, none⟩] .linksOutermost = .error (.inverted 3 2) := by
  cbv

end Composition

end Hyperlisting
