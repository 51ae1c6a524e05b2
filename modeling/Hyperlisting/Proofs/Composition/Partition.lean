import Hyperlisting.Proofs.Composition.Sweep

/-! Composing is making the interval partition: runs that fit the text compose, and what comes out
is read off the table of the runs alone. -/

namespace Hyperlisting.Composition

variable {source : Text} {runs table : List Run} {nesting : Nesting} {c : Composition}

theorem checkAll_eq_ok_iff :
    Run.checkAll source runs = .ok () ↔ ∀ run ∈ runs, run.check source = .ok () := by
  rw [Run.checkAll_eq_forM]
  induction runs with
  | nil => simp [List.forM, pure, Except.pure]
  | cons run runs ih =>
    simp only [List.forM_eq_forM, List.forM_cons, List.mem_cons, forall_eq_or_imp] at ih ⊢
    cases checked : run.check source with
    | error fault => simp [bind, Except.bind]
    | ok => simpa [bind, Except.bind] using ih

theorem pairwise_mergeSort_startsBefore (list : List Entry) :
    (list.mergeSort Entry.startsBefore).Pairwise (·.startsBefore ·) :=
  List.pairwise_mergeSort Entry.startsBefore_trans Entry.startsBefore_total list

theorem byStart_mergeSort (forward : ∀ run ∈ table, run.start ≤ run.stop) :
    ByStart table ((entries table).mergeSort Entry.startsBefore) := by
  refine ⟨?_, ?_, fun entry mem => List.mem_mergeSort.mp mem⟩
  · refine (pairwise_mergeSort_startsBefore _).imp ?_
    intro entry other before
    rw [Entry.startsBefore_iff] at before
    omega
  · intro entry mem
    exact forward entry.run (List.mem_of_getElem? (mem_entries.mp (List.mem_mergeSort.mp mem)))

theorem filter_marks_mergeSort (offset : Nat) :
    ((entries table).mergeSort Entry.startsBefore).filter (·.marks offset) =
      (entries table).filter (·.marks offset) := by
  have perm := (List.mergeSort_perm (entries table) Entry.startsBefore).filter (·.marks offset)
  have unique : ∀ entry other,
      entry ∈ ((entries table).mergeSort Entry.startsBefore).filter (·.marks offset) →
      other ∈ (entries table).filter (·.marks offset) →
      entry.index ≤ other.index → other.index ≤ entry.index → entry = other := by
    intro entry other mem otherMem before after
    exact eq_of_mem_entries (List.mem_filter.mp (perm.mem_iff.mp mem)).1
      (List.mem_filter.mp otherMem).1 (Nat.le_antisymm before after)
  refine List.Perm.eq_of_pairwise unique ?_ ?_ perm
  · refine List.Pairwise.imp_of_mem ?_ ((pairwise_mergeSort_startsBefore _).filter _)
    intro entry other mem otherMem before
    have starts := (List.mem_filter.mp mem).2
    have otherStarts := (List.mem_filter.mp otherMem).2
    simp only [Entry.marks, Bool.and_eq_true, decide_eq_true_eq] at starts otherStarts
    rw [Entry.startsBefore_iff] at before
    omega
  · exact ((entries_ascending table).filter _).imp Nat.le_of_lt

theorem spanBetween_mergeSort (start stop : Nat) :
    spanBetween nesting ((entries table).mergeSort Entry.startsBefore) start stop =
      spanBetween nesting (entries table) start stop := by
  have perm := (List.mergeSort_perm (entries table) Entry.startsBefore).filter (·.covers start stop)
  have active := mergeSort_eq_of_perm nesting
    (fun entry mem => (List.mem_filter.mp (perm.mem_iff.mp mem)).1) perm
  simp only [spanBetween, active, filter_marks_mergeSort]

theorem mem_of_mem_distinct {run : Run} (mem : run ∈ distinct runs) : run ∈ runs :=
  (distinct_sublist runs).subset mem

theorem start_le_stop_of_mem_distinct (fits : ∀ run ∈ runs, run.check source = .ok ()) :
    ∀ run ∈ distinct runs, run.start ≤ run.stop := by
  intro run mem
  exact (Run.check_eq_ok_iff.mp (fits run (mem_of_mem_distinct mem))).1

/-- The cuts by the runs that are kept begin at the start of a text that they fit and end at its
end. -/
theorem exists_cuts_distinct (fits : ∀ run ∈ runs, run.check source = .ok ()) :
    ∃ rest, cuts source.byteSize (distinct runs) = 0 :: rest ∧
      (0 :: rest).getLast? = some source.byteSize := by
  apply exists_cuts_eq
  intro run mem
  obtain ⟨ordered, bounded, _⟩ := Run.check_eq_ok_iff.mp (fits run (mem_of_mem_distinct mem))
  exact ⟨Nat.le_trans ordered bounded, bounded⟩

/-- Composing succeeds exactly when every run fits the text, and then it is the interval partition
by the runs that repeat no earlier one. -/
theorem compose_eq_ok_iff :
    compose source runs nesting = .ok c ↔
      (∀ run ∈ runs, run.check source = .ok ()) ∧
        c = partition nesting source.byteSize (distinct runs) := by
  rw [← checkAll_eq_ok_iff, compose]
  cases checked : Run.checkAll source runs with
  | error fault => simp [bind, Except.bind]
  | ok =>
    have fits := checkAll_eq_ok_iff.mp checked
    obtain ⟨rest, cutsEq, final⟩ := exists_cuts_distinct fits
    have ascending := cuts_ascending source.byteSize (distinct runs)
    have byStart := byStart_mergeSort (start_le_stop_of_mem_distinct fits)
    have complete : ∀ entry ∈ (entries (distinct runs)).mergeSort Entry.startsBefore,
        ∀ n, n = entry.run.start ∨ n = entry.run.stop → 0 ≤ n → n ∈ 0 :: rest := by
      intro entry mem n isEnd _
      have found := List.mem_of_getElem? (mem_entries.mp (byStart.known entry mem))
      rw [← cutsEq, mem_cuts]
      exact .inr (.inr ⟨entry.run, found, isEnd⟩)
    rw [cutsEq] at ascending
    have reached (sorted : List Entry) : Reached sorted 0 []
        (sorted.filter (!·.run.isEmpty)) (sorted.filter (·.run.isEmpty)) :=
      ⟨by simp, by simp, by simp⟩
    have swept : sweep nesting (0 :: rest) [] _ _ = _ :=
      sweep_eq byStart ascending final complete (reached _)
    have listed : (distinct runs).mapIdx Entry.mk = entries (distinct runs) := rfl
    simp only [bind, Except.bind, pure, Except.pure, List.partition_eq_filter_filter, cutsEq,
      Function.comp_def, listed, swept, spanBetween_mergeSort, filter_marks_mergeSort,
      Except.ok.injEq, true_and, partition, List.tail_cons]
    exact eq_comm

end Hyperlisting.Composition
