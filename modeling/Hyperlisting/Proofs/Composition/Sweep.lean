import Hyperlisting.Proofs.Composition.Cuts
import Hyperlisting.Proofs.Composition.Table

/-! The sweep against the interval partition that it computes. Before each cut the live runs are
those that reach the cut from before it, and the pending runs and markers are those that start at it
or later. One step keeps this, and the span that it emits is read off the table alone. -/

namespace Hyperlisting.Composition

variable {nesting : Nesting} {table : List Run} {sorted : List Entry}

namespace Entry

def covers (start stop : Nat) (entry : Entry) : Bool :=
  !entry.run.isEmpty && entry.run.start ≤ start && stop ≤ entry.run.stop

def marks (offset : Nat) (entry : Entry) : Bool :=
  entry.run.isEmpty && entry.run.start = offset

end Entry

/-- The span between two cuts, from the table alone. -/
def spanBetween (nesting : Nesting) (entries : List Entry) (start stop : Nat) : Span where
  start := start
  stop := stop
  active := ((entries.filter (·.covers start stop)).mergeSort (Entry.nestsBefore nesting)).map
    Entry.index
  markers := (entries.filter (·.marks start)).map Entry.index

@[simp] theorem spanBetween_start (entries : List Entry) (start stop : Nat) :
    (spanBetween nesting entries start stop).start = start :=
  rfl

@[simp] theorem spanBetween_stop (entries : List Entry) (start stop : Nat) :
    (spanBetween nesting entries start stop).stop = stop :=
  rfl

/-- The interval partition: a span for every two consecutive cuts. -/
def partition (nesting : Nesting) (size : Nat) (table : List Run) : Composition where
  runs := table.toArray
  spans := ((cuts size table).zip (cuts size table).tail).map fun (start, stop) =>
    spanBetween nesting (entries table) start stop
  trailing := ((entries table).filter (·.marks size)).map Entry.index

theorem takeWhile_eq_filter {p : α → Bool} {list : List α}
    (downward : list.Pairwise fun a b => p b = true → p a = true) :
    list.takeWhile p = list.filter p ∧
      list.drop (list.takeWhile p).length = list.filter (!p ·) := by
  induction list with
  | nil => exact ⟨rfl, rfl⟩
  | cons a list ih =>
    obtain ⟨first, downward⟩ := List.pairwise_cons.mp downward
    obtain ⟨taken, left⟩ := ih downward
    cases holds : p a with
    | true => simp [holds, taken, ← left]
    | false =>
      have none : ∀ b ∈ list, p b = false := by
        intro b member
        cases later : p b with
        | false => rfl
        | true => exact absurd (first b member later) (by simp [holds])
      have stays : list.filter (!p ·) = list :=
        List.filter_eq_self.mpr fun b member => by simp [none b member]
      have goes : list.filter p = [] := List.filter_eq_nil_iff.mpr fun b member => by
        simp [none b member]
      simp [holds, stays, goes]

theorem takeWhile_start {list : List Entry} {p : Entry → Bool} (cut : Nat)
    (byStart : list.Pairwise fun entry other => entry.run.start ≤ other.run.start)
    (reads : ∀ entry, cut ≤ entry.run.start → p entry = decide (entry.run.start = cut)) :
    (list.filter (cut ≤ ·.run.start)).takeWhile p = list.filter (·.run.start = cut) ∧
      (list.filter (cut ≤ ·.run.start)).drop (list.filter (·.run.start = cut)).length =
        list.filter (cut < ·.run.start) := by
  have downward : (list.filter (cut ≤ ·.run.start)).Pairwise
      fun entry other => p other = true → p entry = true := by
    refine List.Pairwise.imp_of_mem ?_ (byStart.filter _)
    intro entry other mem otherMem ordered holds
    have after : cut ≤ entry.run.start := by simpa using (List.mem_filter.mp mem).2
    have otherAfter : cut ≤ other.run.start := by simpa using (List.mem_filter.mp otherMem).2
    simp only [reads entry after, reads other otherAfter, decide_eq_true_eq] at holds ⊢
    omega
  obtain ⟨taken, left⟩ := takeWhile_eq_filter downward
  have here : (list.filter (cut ≤ ·.run.start)).takeWhile p =
      list.filter (·.run.start = cut) := by
    rw [taken, List.filter_filter]
    apply List.filter_congr
    intro entry _
    by_cases after : cut ≤ entry.run.start
    · simp [reads entry after, after]
    · simp [after, show entry.run.start ≠ cut by omega]
  refine ⟨here, ?_⟩
  · rw [← here, left, List.filter_filter]
    apply List.filter_congr
    intro entry _
    by_cases after : cut ≤ entry.run.start
    · simp only [reads entry after, after, decide_true, Bool.and_true, ← decide_not]
      exact decide_eq_decide.mpr (by omega)
    · simp [after, show ¬ cut < entry.run.start by omega]

/-- No run of the table starts or ends between two cuts. -/
def Gap (entries : List Entry) (start stop : Nat) : Prop :=
  ∀ entry ∈ entries, (entry.run.start ≤ start ∨ stop ≤ entry.run.start) ∧
    (entry.run.stop ≤ start ∨ stop ≤ entry.run.stop)

/-- What the sweep holds when it comes to a cut: the live runs reach the cut from before it, and
what starts at it or later is still to come, by start. -/
structure Reached (sorted : List Entry) (cut : Nat) (live pending markers : List Entry) : Prop where
  live : live.Perm ((sorted.filter (!·.run.isEmpty)).filter fun entry =>
    entry.run.start < cut && cut ≤ entry.run.stop)
  pending : pending = (sorted.filter (!·.run.isEmpty)).filter (cut ≤ ·.run.start)
  markers : markers = (sorted.filter (·.run.isEmpty)).filter (cut ≤ ·.run.start)

/-- The entries of a table by start, each of a run that does not end before it starts. -/
structure ByStart (table : List Run) (sorted : List Entry) : Prop where
  ascending : sorted.Pairwise fun entry other => entry.run.start ≤ other.run.start
  forward : ∀ entry ∈ sorted, entry.run.start ≤ entry.run.stop
  known : ∀ entry ∈ sorted, entry ∈ entries table

theorem live_perm_covers {first next : Nat} {live : List Entry} (byStart : ByStart table sorted)
    (less : first < next) (gap : Gap sorted first next)
    (reach : live.Perm ((sorted.filter (!·.run.isEmpty)).filter fun entry =>
      entry.run.start < first && first ≤ entry.run.stop)) :
    (live.filter (first < ·.run.stop) ++
        (sorted.filter (!·.run.isEmpty)).filter (·.run.start = first)).Perm
      (sorted.filter (·.covers first next)) := by
  have split := List.filter_append_perm (fun entry : Entry => !decide (entry.run.start = first))
    (sorted.filter (·.covers first next))
  refine List.Perm.trans ?_ split
  refine ((reach.filter _).trans (.of_eq ?_)).append (.of_eq ?_)
  · simp only [List.filter_filter]
    apply List.filter_congr
    intro entry mem
    have ends := gap entry mem
    rw [Bool.eq_iff_iff]
    simp only [Entry.covers, Bool.and_eq_true, decide_eq_true_eq, Bool.not_eq_true',
      decide_eq_false_iff_not]
    constructor
    · rintro ⟨beyond, ⟨before, _⟩, spanning⟩
      exact ⟨by omega, ⟨spanning, by omega⟩, by omega⟩
    · rintro ⟨different, ⟨spanning, _⟩, _⟩
      exact ⟨by omega, ⟨by omega, by omega⟩, spanning⟩
  · simp only [List.filter_filter]
    apply List.filter_congr
    intro entry mem
    have ends := gap entry mem
    have ordered := byStart.forward entry mem
    rw [Bool.eq_iff_iff]
    simp only [Entry.covers, Bool.and_eq_true, decide_eq_true_eq, Bool.not_eq_true',
      Bool.not_not, Run.isEmpty, beq_eq_false_iff_ne]
    constructor
    · rintro ⟨started, spanning⟩
      exact ⟨started, ⟨spanning, by omega⟩, by omega⟩
    · rintro ⟨started, ⟨spanning, _⟩, _⟩
      exact ⟨started, spanning⟩

/-- In a gap the runs over the gap are those that reach its end from before. -/
theorem filter_covers {first next : Nat} (less : first < next) (gap : Gap sorted first next) :
    sorted.filter (·.covers first next) = (sorted.filter (!·.run.isEmpty)).filter fun entry =>
      entry.run.start < next && next ≤ entry.run.stop := by
  rw [List.filter_filter]
  apply List.filter_congr
  intro entry mem
  have ends := gap entry mem
  rw [Bool.eq_iff_iff]
  simp only [Entry.covers, Bool.and_eq_true, decide_eq_true_eq, Bool.not_eq_true']
  constructor
  · rintro ⟨⟨spanning, started⟩, reached⟩
    exact ⟨⟨by omega, reached⟩, spanning⟩
  · rintro ⟨⟨before, reached⟩, spanning⟩
    exact ⟨⟨spanning, by omega⟩, reached⟩

theorem filter_start_lt {first next : Nat} {p : Entry → Bool} (less : first < next)
    (gap : Gap sorted first next) :
    (sorted.filter p).filter (first < ·.run.start) =
      (sorted.filter p).filter (next ≤ ·.run.start) := by
  apply List.filter_congr
  intro entry mem
  have ends := (gap entry (List.mem_filter.mp mem).1).1
  exact decide_eq_decide.mpr (by omega)

theorem sweep_step {first next : Nat} {live pending markers : List Entry}
    (byStart : ByStart table sorted) (less : first < next) (gap : Gap sorted first next)
    (reached : Reached sorted first live pending markers) :
    ∃ live' pending' markers', Reached sorted next live' pending' markers' ∧
      ∀ rest, sweep nesting (first :: next :: rest) live pending markers =
        (spanBetween nesting sorted first next ::
            (sweep nesting (next :: rest) live' pending' markers').1,
          (sweep nesting (next :: rest) live' pending' markers').2) := by
  obtain ⟨reach, rfl, rfl⟩ := reached
  obtain ⟨opened, later⟩ := takeWhile_start first
    (p := fun entry => entry.run.start ≤ first) (byStart.ascending.filter (!·.run.isEmpty))
    (fun entry after => decide_eq_decide.mpr (by omega))
  obtain ⟨here, laterMarkers⟩ := takeWhile_start first
    (p := fun entry => entry.run.start = first) (byStart.ascending.filter (·.run.isEmpty))
    (fun entry after => rfl)
  have covering := live_perm_covers byStart less gap reach
  have active := mergeSort_eq_of_perm nesting
    (fun entry mem => byStart.known entry (List.mem_filter.mp (covering.mem_iff.mp mem)).1) covering
  refine ⟨_, _, _, ⟨covering.trans (.of_eq (filter_covers less gap)),
    filter_start_lt less gap, filter_start_lt less gap⟩, fun rest => ?_⟩
  have markersHere : (sorted.filter (·.run.isEmpty)).filter (·.run.start = first) =
      sorted.filter (·.marks first) := by
    rw [List.filter_filter]
    exact List.filter_congr fun entry _ => Bool.and_comm ..
  rw [sweep]
  simp only [opened, later, here, laterMarkers, active]
  rw [markersHere]
  rfl

/-- From any cut on the sweep emits the spans of the interval partition. -/
theorem sweep_eq {first last : Nat} {rest : List Nat} {live pending markers : List Entry}
    (byStart : ByStart table sorted) (ascending : (first :: rest).Pairwise (· < ·))
    (final : (first :: rest).getLast? = some last)
    (complete : ∀ entry ∈ sorted, ∀ n, n = entry.run.start ∨ n = entry.run.stop →
      first ≤ n → n ∈ first :: rest)
    (reached : Reached sorted first live pending markers) :
    sweep nesting (first :: rest) live pending markers =
      (((first :: rest).zip rest).map fun (start, stop) => spanBetween nesting sorted start stop,
        (sorted.filter (·.marks last)).map Entry.index) := by
  induction rest generalizing first live pending markers with
  | nil =>
    obtain rfl : first = last := by simpa using final
    simp only [sweep, List.zip_nil_right, List.map_nil, reached.markers, List.filter_filter]
    congr 2
    apply List.filter_congr
    intro entry mem
    rw [Bool.eq_iff_iff]
    simp only [Entry.marks, Bool.and_eq_true, decide_eq_true_eq]
    constructor
    · rintro ⟨after, empty⟩
      exact ⟨empty, by simpa using complete entry mem _ (.inl rfl) after⟩
    · rintro ⟨empty, same⟩
      exact ⟨by omega, empty⟩
  | cons next rest ih =>
    obtain ⟨least, ascending'⟩ := List.pairwise_cons.mp ascending
    have less := least next List.mem_cons_self
    have later : ∀ entry ∈ sorted, ∀ n, n = entry.run.start ∨ n = entry.run.stop →
        first < n → n ∈ next :: rest := by
      intro entry mem n isEnd after
      rcases List.mem_cons.mp (complete entry mem n isEnd (by omega)) with rfl | member
      · omega
      · exact member
    have beyond : ∀ n ∈ next :: rest, next ≤ n := by
      intro n member
      rcases List.mem_cons.mp member with rfl | member
      · exact Nat.le_refl _
      · exact Nat.le_of_lt ((List.pairwise_cons.mp ascending').1 n member)
    have gap : Gap sorted first next := by
      intro entry mem
      have started := fun after => beyond _ (later entry mem _ (.inl rfl) after)
      have stopped := fun after => beyond _ (later entry mem _ (.inr rfl) after)
      omega
    obtain ⟨live', pending', markers', reached', stepped⟩ := sweep_step byStart less gap reached
    have following := ih ascending' (by simpa using final)
      (fun entry mem n isEnd after => later entry mem n isEnd (by omega)) reached'
    rw [stepped, following]
    rfl

end Hyperlisting.Composition
