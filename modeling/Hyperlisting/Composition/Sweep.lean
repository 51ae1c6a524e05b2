import Std.Data.TreeMap
import Hyperlisting.Composition

/-!
Composing runs. Every end of a run is a cut. One sweep over the cuts keeps the runs that are still
open, takes in those that start, and lets go of those that ended, so each run is looked at only
while it is open. Of runs that repeat each other only the first takes part (`distinct_cons`).
-/

namespace Hyperlisting.Composition

abbrev Seen := Std.TreeMap Nat (List Run)

namespace Seen

def repeated (seen : Seen) (run : Run) : Bool := (seen.getD run.start []).any (·.repeats run)

def add (seen : Seen) (run : Run) : Seen :=
  seen.insert run.start (run :: seen.getD run.start [])

end Seen

/-- The runs without those that repeat an earlier one or a run seen before. -/
def distinctFrom (seen : Seen) : List Run → List Run
  | [] => []
  | run :: runs =>
    if seen.repeated run then distinctFrom seen runs else run :: distinctFrom (seen.add run) runs

def distinct (runs : List Run) : List Run := distinctFrom ∅ runs

structure Entry where
  index : Nat
  run : Run

namespace Entry

/-- The outer category first, then the earlier start, the later end, the earlier place. -/
def nestsBefore (nesting : Nesting) (entry other : Entry) : Bool :=
  let rank := nesting.rank entry.run.category
  let otherRank := nesting.rank other.run.category
  if rank ≠ otherRank then rank < otherRank
  else if entry.run.start ≠ other.run.start then entry.run.start < other.run.start
  else if entry.run.stop ≠ other.run.stop then other.run.stop < entry.run.stop
  else entry.index ≤ other.index

def startsBefore (entry other : Entry) : Bool :=
  if entry.run.start ≠ other.run.start then entry.run.start < other.run.start
  else entry.index ≤ other.index

end Entry

/-- The ends of the text and of all runs, ascending, each once. -/
def cuts (size : Nat) (runs : List Run) : List Nat :=
  (0 :: size :: runs.flatMap fun run => [run.start, run.stop]).mergeSort.eraseReps

/-- The spans between consecutive cuts, and the markers that no span starts with. `live` are the
runs that were open in the span before, `pending` and `markers` those still to come, by start. -/
def sweep (nesting : Nesting) :
    List Nat → (live pending markers : List Entry) → List Span × List Nat
  | start :: stop :: rest, live, pending, markers =>
    let opened := pending.takeWhile (·.run.start ≤ start)
    let live := live.filter (start < ·.run.stop) ++ opened
    let here := markers.takeWhile (·.run.start = start)
    let span : Span :=
      { start, stop
        active := (live.mergeSort (Entry.nestsBefore nesting)).map Entry.index
        markers := here.map Entry.index }
    let (spans, trailing) := sweep nesting (stop :: rest) live
      (pending.drop opened.length) (markers.drop here.length)
    (span :: spans, trailing)
  | _, _, _, markers => ([], markers.map Entry.index)

/-- Merges runs into spans. The first run that does not fit the text is the fault reported. -/
def compose (source : Text) (runs : List Run) (nesting : Nesting) :
    Except Run.Fault Composition := do
  Run.checkAll source runs
  let table := distinct runs
  let entries := (table.mapIdx Entry.mk).mergeSort Entry.startsBefore
  let (markers, pending) := entries.partition (·.run.isEmpty)
  let (spans, trailing) := sweep nesting (cuts source.byteSize table) [] pending markers
  return { runs := table.toArray, spans, trailing }

@[simp] theorem repeated_empty (run : Run) : Seen.repeated ∅ run = false := by
  simp [Seen.repeated]

theorem repeated_add (seen : Seen) (run other : Run) :
    (seen.add run).repeated other = (run.repeats other || seen.repeated other) := by
  by_cases same : run.start = other.start
  · simp [Seen.repeated, Seen.add, same]
  · simp [Seen.repeated, Seen.add, Std.TreeMap.getD_insert, same, Run.repeats]

/-- What a repeated run repeats is repeated. -/
theorem repeated_of_repeats {seen : Seen} {run other : Run} (repeated : seen.repeated run = true)
    (repeats : run.repeats other = true) : seen.repeated other = true := by
  obtain ⟨first, mem, first_repeats⟩ := List.any_eq_true.mp repeated
  rw [Run.start_eq_of_repeats repeats] at mem
  exact List.any_eq_true.mpr ⟨first, mem, Run.repeats_trans first_repeats repeats⟩

theorem distinctFrom_eq_filter (seen : Seen) (runs : List Run) :
    distinctFrom seen runs = (distinct runs).filter (!seen.repeated ·) := by
  induction runs generalizing seen with
  | nil => rfl
  | cons run runs ih =>
    have alone : distinct (run :: runs) = run :: (distinct runs).filter (!run.repeats ·) := by
      simp [distinct, distinctFrom, ih (Seen.add ∅ run), repeated_add]
    rw [alone, distinctFrom]
    split
    · rename_i repeated
      simp only [ih, List.filter_cons, repeated, Bool.not_true, Bool.false_eq_true, if_false,
        List.filter_filter]
      refine List.filter_congr fun other _ => ?_
      cases repeats : run.repeats other
      · simp
      · simp [repeated_of_repeats repeated repeats]
    · rename_i fresh
      simp [ih, fresh, repeated_add, Bool.and_comm, Bool.not_or]

/-- The first run stays, and all that repeat it go. -/
theorem distinct_cons (run : Run) (runs : List Run) :
    distinct (run :: runs) = run :: (distinct runs).filter (!run.repeats ·) := by
  simp [distinct, distinctFrom, distinctFrom_eq_filter (Seen.add ∅ run), repeated_add]

theorem distinct_sublist (runs : List Run) : (distinct runs).Sublist runs := by
  induction runs with
  | nil => exact .slnil
  | cons run runs ih =>
    rw [distinct_cons]
    exact (List.filter_sublist.trans ih).cons_cons run

end Hyperlisting.Composition
