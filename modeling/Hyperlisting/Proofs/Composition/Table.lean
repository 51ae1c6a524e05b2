import Hyperlisting.Composition.Sweep

/-! The table of a composition: the runs that repeat none before them, each with its place, and
the order in which they nest. The order is strict, total on the table and kept by sorting. -/

namespace Hyperlisting

theorem Treatment.sameAs_comm (first second : Treatment) :
    first.sameAs second = second.sameAs first := by
  cases first <;> cases second <;>
    simp [sameAs, Destination.sameAs, Path.sameAs, Bool.beq_comm (α := Text),
      Bool.beq_comm (α := List Path.Component), Bool.beq_comm (α := Option Text)]

theorem Run.repeats_refl (run : Run) : run.repeats run = true := by
  obtain ⟨start, stop, treatment, tooltip⟩ := run
  cases treatment <;> simp [repeats, Treatment.sameAs, Destination.sameAs, Path.sameAs]

theorem Run.repeats_comm (run other : Run) : run.repeats other = other.repeats run := by
  simp only [repeats, Bool.beq_comm (α := Nat) (a := run.start),
    Bool.beq_comm (α := Nat) (a := run.stop), Treatment.sameAs_comm run.treatment]

namespace Composition

variable {nesting : Nesting} {table : List Run}

theorem zipIdx_filter_eq_distinct (before runs : List Run) :
    ((runs.zipIdx before.length).filter
        fun (run, i) => !((before ++ runs).take i).any (·.repeats run)).map Prod.fst =
      (distinct runs).filter fun run => !before.any (·.repeats run) := by
  induction runs generalizing before with
  | nil => rfl
  | cons run runs ih =>
    have later := ih (before ++ [run])
    simp only [List.append_assoc, List.singleton_append, List.length_append,
      List.length_singleton] at later
    rw [List.zipIdx_cons, List.filter_cons, distinct_cons, List.filter_cons]
    simp only [List.take_left]
    have rest : ((distinct runs).filter fun other => !(before ++ [run]).any (·.repeats other)) =
        ((distinct runs).filter (!run.repeats ·)).filter
          fun other => !before.any (·.repeats other) := by
      rw [List.filter_filter]
      apply List.filter_congr
      intro other _
      simp
    split
    · rw [List.map_cons, later, rest]
    · rw [later, rest]

theorem distinct_eq_filter (runs : List Run) :
    distinct runs =
      (runs.zipIdx.filter fun (run, i) => !(runs.take i).any (·.repeats run)).map Prod.fst := by
  have kept : (distinct runs).filter (fun _ => true) = distinct runs :=
    List.filter_eq_self.mpr fun _ _ => rfl
  exact kept.symm.trans (zipIdx_filter_eq_distinct [] runs).symm

theorem pairwise_distinct (runs : List Run) :
    (distinct runs).Pairwise fun run later => run.repeats later = false := by
  induction runs with
  | nil => exact .nil
  | cons run runs ih =>
    rw [distinct_cons]
    refine List.pairwise_cons.mpr ⟨?_, ih.filter _⟩
    intro later mem
    simpa using (List.mem_filter.mp mem).2

/-- Runs of which none repeats an earlier one are all kept. -/
theorem distinct_eq_self {runs : List Run}
    (apart : runs.Pairwise fun run later => run.repeats later = false) : distinct runs = runs := by
  induction runs with
  | nil => rfl
  | cons run runs ih =>
    obtain ⟨fresh, later⟩ := List.pairwise_cons.mp apart
    rw [distinct_cons, ih later, List.filter_eq_self.mpr]
    intro other mem
    simp [fresh other mem]

/-- The run at one place nests outside the run at another: by category, then the earlier start,
the later end, the earlier place. -/
def Precedes (nesting : Nesting) (table : List Run) (i j : Nat) : Prop :=
  ∃ run other, table[i]? = some run ∧ table[j]? = some other ∧
    (nesting.rank run.category < nesting.rank other.category ∨
      nesting.rank run.category = nesting.rank other.category ∧
        (run.start < other.start ∨ run.start = other.start ∧
          (other.stop < run.stop ∨ run.stop = other.stop ∧ i < j)))

theorem Precedes.irrefl {i : Nat} : ¬ Precedes nesting table i i := by
  rintro ⟨run, other, first, second, before⟩
  obtain rfl := Option.some.inj (first.symm.trans second)
  omega

theorem Precedes.trans {i j k : Nat} (first : Precedes nesting table i j)
    (second : Precedes nesting table j k) : Precedes nesting table i k := by
  obtain ⟨run, middle, atI, atJ, before⟩ := first
  obtain ⟨middle', other, atJ', atK, after⟩ := second
  obtain rfl := Option.some.inj (atJ.symm.trans atJ')
  exact ⟨run, other, atI, atK, by omega⟩

theorem Precedes.asymm {i j : Nat} (first : Precedes nesting table i j) :
    ¬ Precedes nesting table j i :=
  fun second => (first.trans second).irrefl

instance : Std.Irrefl (Precedes nesting table) := ⟨fun _ => Precedes.irrefl⟩

instance : Std.Antisymm (Precedes nesting table) :=
  ⟨fun _ _ before after => absurd after before.asymm⟩

def entries (table : List Run) : List Entry := table.mapIdx Entry.mk

theorem mem_entries {entry : Entry} :
    entry ∈ entries table ↔ table[entry.index]? = some entry.run := by
  simp only [entries, List.mem_mapIdx]
  constructor
  · rintro ⟨i, bound, rfl⟩
    exact List.getElem?_eq_getElem bound
  · intro found
    obtain ⟨bound, same⟩ := List.getElem?_eq_some_iff.mp found
    exact ⟨entry.index, bound, by rw [same]⟩

theorem entries_ascending (table : List Run) : (entries table).Pairwise (·.index < ·.index) := by
  simp [entries, List.pairwise_iff_getElem]

theorem eq_of_mem_entries {entry other : Entry} (mem : entry ∈ entries table)
    (otherMem : other ∈ entries table) (same : entry.index = other.index) : entry = other := by
  have runs := (mem_entries.mp mem).symm.trans (same ▸ mem_entries.mp otherMem)
  obtain ⟨index, run⟩ := entry
  obtain rfl : run = other.run := Option.some.inj runs
  obtain rfl : index = other.index := same
  rfl

namespace Entry

theorem nestsBefore_iff {entry other : Entry} :
    entry.nestsBefore nesting other = true ↔
      nesting.rank entry.run.category < nesting.rank other.run.category ∨
        nesting.rank entry.run.category = nesting.rank other.run.category ∧
          (entry.run.start < other.run.start ∨ entry.run.start = other.run.start ∧
            (other.run.stop < entry.run.stop ∨ entry.run.stop = other.run.stop ∧
              entry.index ≤ other.index)) := by
  unfold nestsBefore
  dsimp only
  split
  · simp only [decide_eq_true_eq]
    omega
  split
  · simp only [decide_eq_true_eq]
    omega
  split <;> simp only [decide_eq_true_eq] <;> omega

theorem nestsBefore_total (nesting : Nesting) (entry other : Entry) :
    (entry.nestsBefore nesting other || other.nestsBefore nesting entry) = true := by
  rw [Bool.or_eq_true, nestsBefore_iff, nestsBefore_iff]
  omega

theorem nestsBefore_trans (nesting : Nesting) (a b c : Entry)
    (first : a.nestsBefore nesting b = true) (second : b.nestsBefore nesting c = true) :
    a.nestsBefore nesting c = true := by
  rw [nestsBefore_iff] at *
  omega

theorem index_eq_of_nestsBefore {entry other : Entry} (first : entry.nestsBefore nesting other = true)
    (second : other.nestsBefore nesting entry = true) : entry.index = other.index := by
  rw [nestsBefore_iff] at first second
  omega

theorem precedes_of_nestsBefore {entry other : Entry} (mem : entry ∈ entries table)
    (otherMem : other ∈ entries table) (before : entry.nestsBefore nesting other = true)
    (different : entry.index ≠ other.index) :
    Precedes nesting table entry.index other.index := by
  rw [nestsBefore_iff] at before
  exact ⟨entry.run, other.run, mem_entries.mp mem, mem_entries.mp otherMem, by omega⟩

theorem startsBefore_iff {entry other : Entry} :
    entry.startsBefore other = true ↔
      entry.run.start < other.run.start ∨
        entry.run.start = other.run.start ∧ entry.index ≤ other.index := by
  unfold startsBefore
  split <;> simp only [decide_eq_true_eq] <;> omega

theorem startsBefore_total (entry other : Entry) :
    (entry.startsBefore other || other.startsBefore entry) = true := by
  rw [Bool.or_eq_true, startsBefore_iff, startsBefore_iff]
  omega

theorem startsBefore_trans (a b c : Entry) (first : a.startsBefore b = true)
    (second : b.startsBefore c = true) : a.startsBefore c = true := by
  rw [startsBefore_iff] at *
  omega

end Entry

/-- Sorting makes one list of all orders of the same entries. -/
theorem mergeSort_eq_of_perm (nesting : Nesting) {first second : List Entry}
    (table_mem : ∀ entry ∈ first, entry ∈ entries table) (perm : first.Perm second) :
    first.mergeSort (Entry.nestsBefore nesting) = second.mergeSort (Entry.nestsBefore nesting) := by
  have sorted (list : List Entry) :=
    List.pairwise_mergeSort (Entry.nestsBefore_trans nesting) (Entry.nestsBefore_total nesting) list
  refine List.Perm.eq_of_pairwise ?_ (sorted first) (sorted second)
    ((List.mergeSort_perm first _).trans (perm.trans (List.mergeSort_perm second _).symm))
  intro entry other mem otherMem before after
  exact eq_of_mem_entries (table_mem entry (List.mem_mergeSort.mp mem))
    (table_mem other (perm.mem_iff.mpr (List.mem_mergeSort.mp otherMem)))
    (Entry.index_eq_of_nestsBefore before after)

end Composition

end Hyperlisting
