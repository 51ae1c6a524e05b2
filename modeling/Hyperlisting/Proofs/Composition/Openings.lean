import Hyperlisting.Proofs.Composition.Intervals

/-! Which elements open at which spans. A run opens where it starts, and again inside its range
wherever a run that nests outside it starts or ends: there its element is closed with the tags
around it. -/

namespace Hyperlisting.Composition

variable {source : Text} {runs table : List Run} {nesting : Nesting} {c : Composition}

def newlyOpened : (opened wanted : List Nat) → List Nat
  | a :: opened, b :: wanted => if a = b then newlyOpened opened wanted else b :: wanted
  | _, wanted => wanted

/-- The places that some spans open, in order, from those that are open before them. -/
def openedFrom (opened : List Nat) : List Span → List Nat
  | [] => []
  | span :: spans =>
    newlyOpened opened span.active ++ span.markers ++ openedFrom span.active spans

def openings (c : Composition) : List Nat := openedFrom [] c.spans ++ c.trailing

def openingOffsets (i : Nat) (opened : List Nat) : List Span → List Nat
  | [] => []
  | span :: spans =>
    if i ∈ newlyOpened opened span.active then span.start :: openingOffsets i span.active spans
    else openingOffsets i span.active spans

theorem newlyOpened_sublist (opened wanted : List Nat) :
    (newlyOpened opened wanted).Sublist wanted := by
  fun_induction newlyOpened opened wanted with
  | case1 opened a wanted ih => exact ih.cons a
  | case2 a opened b wanted different => exact .refl _
  | case3 opened wanted => exact .refl _

/-- With nothing open, or nothing wanted, all that is wanted opens. -/
theorem newlyOpened_eq_wanted {opened wanted : List Nat}
    (shape : ∀ (a : Nat) (outer : List Nat) (b : Nat) (others : List Nat),
      opened = a :: outer → wanted = b :: others → False) : newlyOpened opened wanted = wanted := by
  rw [newlyOpened]
  exact shape

theorem exists_of_mem_openedFrom {i : Nat} {opened : List Nat} {spans : List Span}
    (mem : i ∈ openedFrom opened spans) : ∃ span ∈ spans, i ∈ span.active ∨ i ∈ span.markers := by
  induction spans generalizing opened with
  | nil => cases mem
  | cons span spans ih =>
    rw [openedFrom, List.mem_append, List.mem_append] at mem
    rcases mem with (mem | mem) | mem
    · exact ⟨span, List.mem_cons_self, .inl ((newlyOpened_sublist ..).subset mem)⟩
    · exact ⟨span, List.mem_cons_self, .inr mem⟩
    · obtain ⟨later, inSpans, listed⟩ := ih mem
      exact ⟨later, List.mem_cons_of_mem _ inSpans, listed⟩

theorem mem_openingOffsets_cons {i n : Nat} {opened : List Nat} {span : Span} {spans : List Span} :
    n ∈ openingOffsets i opened (span :: spans) ↔
      n = span.start ∧ i ∈ newlyOpened opened span.active ∨
        n ∈ openingOffsets i span.active spans := by
  rw [openingOffsets]
  split
  · rename_i opens
    simp [opens]
  · rename_i closed
    simp [closed]

theorem openingOffsets_sublist (i : Nat) (opened : List Nat) (spans : List Span) :
    (openingOffsets i opened spans).Sublist (spans.map Span.start) := by
  induction spans generalizing opened with
  | nil => exact .slnil
  | cons span spans ih =>
    unfold openingOffsets
    split
    · exact (ih span.active).cons_cons span.start
    · exact (ih span.active).cons span.start

theorem count_openedFrom {i : Nat} {spans : List Span} (opened : List Nat)
    (once : ∀ span ∈ spans, span.active.Nodup) (unmarked : ∀ span ∈ spans, i ∉ span.markers) :
    (openedFrom opened spans).count i = (openingOffsets i opened spans).length := by
  induction spans generalizing opened with
  | nil => rfl
  | cons span spans ih =>
    obtain ⟨here, later⟩ := List.forall_mem_cons.mp once
    obtain ⟨bare, laterBare⟩ := List.forall_mem_cons.mp unmarked
    have nodup := here.sublist (newlyOpened_sublist opened span.active)
    rw [openedFrom, List.count_append, List.count_append, List.count_eq_zero.mpr bare,
      ih span.active later laterBare, openingOffsets, nodup.count]
    split
    · rw [List.length_cons]
      omega
    · omega

section Sorted

variable {before : Nat → Nat → Prop} (asymm : ∀ a b, before a b → ¬ before b a)
  {a b : Nat} {opened wanted : List Nat}

include asymm

/-- Below a common head nothing changes: every other place has the head outside it in both lists,
and nothing stands outside the head. -/
theorem mem_newlyOpened_cons (sorted : (a :: opened).Pairwise before)
    (wantedSorted : (a :: wanted).Pairwise before) (i : Nat) :
    (i ∈ wanted ∧ ¬ (i ∈ opened ∧ ∀ x, before x i → (x ∈ opened ↔ x ∈ wanted))) ↔
      i ∈ a :: wanted ∧
        ¬ (i ∈ a :: opened ∧ ∀ x, before x i → (x ∈ a :: opened ↔ x ∈ a :: wanted)) := by
  have least := (List.pairwise_cons.mp sorted).1
  have wantedLeast := (List.pairwise_cons.mp wantedSorted).1
  have notOpened : a ∉ opened := fun mem => asymm a a (least a mem) (least a mem)
  have notWanted : a ∉ wanted := fun mem => asymm a a (wantedLeast a mem) (wantedLeast a mem)
  by_cases same : i = a
  · subst same
    have around : ∀ x, before x i → (x ∈ i :: opened ↔ x ∈ i :: wanted) := by
      intro x outside
      have unequal : x ≠ i := by
        rintro rfl
        exact asymm x x outside outside
      simp only [List.mem_cons, unequal, false_or]
      constructor
      · intro mem
        exact absurd outside (asymm _ _ (least x mem))
      · intro mem
        exact absurd outside (asymm _ _ (wantedLeast x mem))
    constructor
    · rintro ⟨mem, _⟩
      exact absurd mem notWanted
    · rintro ⟨_, closed⟩
      exact absurd ⟨List.mem_cons_self, around⟩ closed
  · have around (x : Nat) : (x ∈ a :: opened ↔ x ∈ a :: wanted) ↔ (x ∈ opened ↔ x ∈ wanted) := by
      by_cases first : x = a
      · subst first
        simp [notOpened, notWanted]
      · simp [first]
    simp only [around]
    simp [same]

/-- Below different heads nothing stays open: the two heads would each have to stand outside the
other. -/
theorem not_around_of_heads_ne (different : a ≠ b) (sorted : (a :: opened).Pairwise before)
    (wantedSorted : (b :: wanted).Pairwise before) {i : Nat} (openMem : i ∈ a :: opened)
    (mem : i ∈ b :: wanted) : ¬ ∀ x, before x i → (x ∈ a :: opened ↔ x ∈ b :: wanted) := by
  intro around
  have least := (List.pairwise_cons.mp sorted).1
  have wantedLeast := (List.pairwise_cons.mp wantedSorted).1
  have outsideOf : a = i ∨ before a i := by
    rcases List.mem_cons.mp openMem with rfl | later
    · exact .inl rfl
    · exact .inr (least i later)
  have wantedOutsideOf : b = i ∨ before b i := by
    rcases List.mem_cons.mp mem with rfl | later
    · exact .inl rfl
    · exact .inr (wantedLeast i later)
  have forth : before b i → before a b := by
    intro outside
    rcases List.mem_cons.mp ((around b outside).mpr List.mem_cons_self) with rfl | later
    · exact absurd rfl different
    · exact least b later
  have back : before a i → before b a := by
    intro outside
    rcases List.mem_cons.mp ((around a outside).mp List.mem_cons_self) with rfl | later
    · exact absurd rfl different
    · exact wantedLeast a later
  rcases outsideOf with rfl | outside
  · rcases wantedOutsideOf with rfl | wantedOutside
    · exact different rfl
    · exact asymm _ _ wantedOutside (forth wantedOutside)
  · rcases wantedOutsideOf with rfl | wantedOutside
    · exact asymm _ _ outside (back outside)
    · exact asymm _ _ (forth wantedOutside) (back outside)

/-- A place stays open between two sorted lists exactly when the same places are open around it. -/
theorem mem_newlyOpened (sorted : opened.Pairwise before) (wantedSorted : wanted.Pairwise before)
    {i : Nat} :
    i ∈ newlyOpened opened wanted ↔
      i ∈ wanted ∧ ¬ (i ∈ opened ∧ ∀ x, before x i → (x ∈ opened ↔ x ∈ wanted)) := by
  fun_induction newlyOpened opened wanted with
  | case1 opened a wanted ih =>
    rw [ih sorted.of_cons wantedSorted.of_cons]
    exact mem_newlyOpened_cons asymm sorted wantedSorted i
  | case2 a opened b wanted different =>
    constructor
    · intro mem
      refine ⟨mem, ?_⟩
      rintro ⟨openMem, around⟩
      exact not_around_of_heads_ne asymm different sorted wantedSorted openMem mem around
    · rintro ⟨mem, _⟩
      exact mem
  | case3 opened wanted shape =>
    constructor
    · intro mem
      refine ⟨mem, ?_⟩
      rintro ⟨openMem, _⟩
      obtain ⟨a, opened, rfl⟩ := List.exists_cons_of_ne_nil (List.ne_nil_of_mem openMem)
      obtain ⟨b, wanted, rfl⟩ := List.exists_cons_of_ne_nil (List.ne_nil_of_mem mem)
      exact shape a opened b wanted rfl rfl
    · rintro ⟨mem, _⟩
      exact mem

end Sorted

/-- The run starts before an offset and reaches it. -/
def ReachesFromBefore (table : List Run) (n i : Nat) : Prop :=
  ∃ run, table[i]? = some run ∧ run.start < n ∧ n ≤ run.stop

/-- The run is not over yet at an offset. -/
def ReachesBeyond (table : List Run) (n i : Nat) : Prop :=
  ∃ run, table[i]? = some run ∧ run.start ≤ n ∧ n < run.stop

/-- An end of a run that nests outside the run at a place. -/
def OuterEnd (nesting : Nesting) (table : List Run) (i n : Nat) : Prop :=
  ∃ j other, table[j]? = some other ∧ other.isEmpty = false ∧ Precedes nesting table j i ∧
    (other.start = n ∨ other.stop = n)

/-- The offsets at which a run opens: its start, and every end of an outer run within its range. -/
def OpensAt (nesting : Nesting) (table : List Run) (i : Nat) (run : Run) (n : Nat) : Prop :=
  run.start ≤ n ∧ n < run.stop ∧ (n = run.start ∨ OuterEnd nesting table i n)

theorem mem_newlyOpened_iff_opensAt {opened wanted : List Nat} {n i : Nat} {run : Run}
    (forward : ∀ run ∈ table, run.start ≤ run.stop)
    (sorted : opened.Pairwise (Precedes nesting table))
    (wantedSorted : wanted.Pairwise (Precedes nesting table))
    (openedMem : ∀ j, j ∈ opened ↔ ReachesFromBefore table n j)
    (wantedMem : ∀ j, j ∈ wanted ↔ ReachesBeyond table n j)
    (found : table[i]? = some run) :
    i ∈ newlyOpened opened wanted ↔ OpensAt nesting table i run n := by
  rw [mem_newlyOpened (fun a b => Precedes.asymm) sorted wantedSorted]
  constructor
  · rintro ⟨mem, closed⟩
    obtain ⟨run', found', started, lasts⟩ := (wantedMem i).mp mem
    obtain rfl := Option.some.inj (found.symm.trans found')
    refine ⟨started, lasts, ?_⟩
    by_contra neither
    obtain ⟨later, noEnd⟩ := not_or.mp neither
    apply closed
    refine ⟨(openedMem i).mpr ⟨run, found, by omega, by omega⟩, ?_⟩
    intro j outside
    have notEnd : ∀ other, table[j]? = some other → other.isEmpty = false →
        other.start ≠ n ∧ other.stop ≠ n := by
      intro other atPlace nonempty
      exact ⟨fun atStart => noEnd ⟨j, other, atPlace, nonempty, outside, .inl atStart⟩,
        fun atStop => noEnd ⟨j, other, atPlace, nonempty, outside, .inr atStop⟩⟩
    rw [openedMem, wantedMem]
    constructor
    · rintro ⟨other, atPlace, before, reached⟩
      have ends := notEnd other atPlace (by simp [Run.isEmpty]; omega)
      exact ⟨other, atPlace, by omega, by omega⟩
    · rintro ⟨other, atPlace, before, reached⟩
      have ends := notEnd other atPlace (by simp [Run.isEmpty]; omega)
      exact ⟨other, atPlace, by omega, by omega⟩
  · rintro ⟨started, lasts, reason⟩
    refine ⟨(wantedMem i).mpr ⟨run, found, started, lasts⟩, ?_⟩
    rintro ⟨mem, around⟩
    obtain ⟨run', found', before, _⟩ := (openedMem i).mp mem
    obtain rfl := Option.some.inj (found.symm.trans found')
    rcases reason with rfl | ⟨j, other, atPlace, nonempty, outside, isEnd⟩
    · omega
    have ordered := forward other (List.mem_of_getElem? atPlace)
    have unequal : other.start ≠ other.stop := by simpa [Run.isEmpty] using nonempty
    have same := around j outside
    rw [openedMem, wantedMem] at same
    rcases isEnd with rfl | rfl
    · obtain ⟨other', atPlace', before, _⟩ := same.mpr ⟨other, atPlace, by omega, by omega⟩
      obtain rfl := Option.some.inj (atPlace.symm.trans atPlace')
      omega
    · obtain ⟨other', atPlace', _, beyond⟩ := same.mp ⟨other, atPlace, by omega, by omega⟩
      obtain rfl := Option.some.inj (atPlace.symm.trans atPlace')
      omega

section Active

variable {start stop : Nat}
  (noneBetween : ∀ run ∈ table, ∀ m, m = run.start ∨ m = run.stop → start < m → stop ≤ m)

include noneBetween

theorem mem_active_iff_beyond (less : start < stop) (j : Nat) :
    j ∈ (spanBetween nesting (entries table) start stop).active ↔ ReachesBeyond table start j := by
  rw [mem_active]
  constructor
  · rintro ⟨run, found, _, started, reached⟩
    exact ⟨run, found, started, by omega⟩
  · rintro ⟨run, found, started, lasts⟩
    have reached := noneBetween run (List.mem_of_getElem? found) run.stop (.inr rfl) lasts
    exact ⟨run, found, by simp [Run.isEmpty]; omega, started, reached⟩

theorem mem_active_iff_fromBefore (less : start < stop) (j : Nat) :
    j ∈ (spanBetween nesting (entries table) start stop).active ↔
      ReachesFromBefore table stop j := by
  rw [mem_active]
  constructor
  · rintro ⟨run, found, _, started, reached⟩
    exact ⟨run, found, by omega, reached⟩
  · rintro ⟨run, found, started, reached⟩
    have noLater := noneBetween run (List.mem_of_getElem? found) run.start (.inl rfl)
    exact ⟨run, found, by simp [Run.isEmpty]; omega, by omega, reached⟩

end Active

theorem mem_openingOffsets {first n i : Nat} {rest : List Nat} {opened : List Nat} {run : Run}
    (forward : ∀ run ∈ table, run.start ≤ run.stop)
    (ascending : (first :: rest).Pairwise (· < ·))
    (complete : ∀ run ∈ table, ∀ n, n = run.start ∨ n = run.stop → first ≤ n → n ∈ first :: rest)
    (sorted : opened.Pairwise (Precedes nesting table))
    (openedMem : ∀ j, j ∈ opened ↔ ReachesFromBefore table first j)
    (found : table[i]? = some run) :
    n ∈ openingOffsets i opened (((first :: rest).zip rest).map fun (start, stop) =>
        spanBetween nesting (entries table) start stop) ↔
      n ∈ first :: rest ∧ OpensAt nesting table i run n := by
  induction rest generalizing first opened with
  | nil =>
    constructor
    · intro mem
      cases mem
    · rintro ⟨mem, started, lasts, _⟩
      obtain rfl := List.mem_singleton.mp mem
      have last := complete run (List.mem_of_getElem? found) run.stop (.inr rfl) (by omega)
      have same := List.mem_singleton.mp last
      omega
  | cons next rest ih =>
    obtain ⟨least, laterAscending⟩ := List.pairwise_cons.mp ascending
    have step := least next List.mem_cons_self
    have laterComplete : ∀ run ∈ table, ∀ m, m = run.start ∨ m = run.stop → first < m →
        m ∈ next :: rest := by
      intro run mem m isEnd above
      rcases List.mem_cons.mp (complete run mem m isEnd (Nat.le_of_lt above)) with rfl | later
      · omega
      · exact later
    have noneBetween : ∀ run ∈ table, ∀ m, m = run.start ∨ m = run.stop → first < m →
        next ≤ m := by
      intro run mem m isEnd above
      rcases List.mem_cons.mp (laterComplete run mem m isEnd above) with rfl | later
      · exact Nat.le_refl _
      · exact Nat.le_of_lt ((List.pairwise_cons.mp laterAscending).1 m later)
    have activeSorted := active_pairwise nesting table first next
    have here := mem_newlyOpened_iff_opensAt forward sorted activeSorted openedMem
      (mem_active_iff_beyond noneBetween step) found
    have later := ih laterAscending
      (fun run mem m isEnd above => laterComplete run mem m isEnd (by omega))
      activeSorted (mem_active_iff_fromBefore noneBetween step)
    rw [List.zip_cons_cons, List.map_cons, mem_openingOffsets_cons, spanBetween_start, here, later,
      @List.mem_cons _ first, or_and_right]
    refine or_congr (and_congr_right ?_) Iff.rfl
    rintro rfl
    rfl

/-- Whatever shares text with a run and nests outside it lies over all of it. -/
def Unsplit (nesting : Nesting) (table : List Run) (i : Nat) (run : Run) : Prop :=
  ∀ j other, table[j]? = some other → other.isEmpty = false → Precedes nesting table j i →
    other.start < run.stop → run.start < other.stop →
    other.start ≤ run.start ∧ run.stop ≤ other.stop

theorem unsplit_iff {i : Nat} {run : Run}
    (forward : ∀ run ∈ table, run.start ≤ run.stop) :
    Unsplit nesting table i run ↔ ∀ n, OpensAt nesting table i run n → n = run.start := by
  constructor
  · rintro unsplit n ⟨started, lasts, same | ⟨j, other, atPlace, nonempty, outside, isEnd⟩⟩
    · exact same
    have ordered := forward other (List.mem_of_getElem? atPlace)
    have unequal : other.start ≠ other.stop := by simpa [Run.isEmpty] using nonempty
    have around := unsplit j other atPlace nonempty outside
    omega
  · intro single j other atPlace nonempty outside before after
    have atStart (inner : run.start ≤ other.start) : other.start = run.start :=
      single other.start ⟨inner, before, .inr ⟨j, other, atPlace, nonempty, outside, .inl rfl⟩⟩
    have atStop (inner : other.stop < run.stop) : other.stop = run.start :=
      single other.stop ⟨Nat.le_of_lt after, inner,
        .inr ⟨j, other, atPlace, nonempty, outside, .inr rfl⟩⟩
    omega

theorem start_le_stop_of_compose (composed : compose source runs nesting = .ok c) :
    ∀ run ∈ c.runs.toList, run.start ≤ run.stop := by
  obtain ⟨fits, rfl⟩ := compose_eq_ok_iff.mp composed
  exact start_le_stop_of_mem_distinct fits

theorem length_eq_one_iff_of_nodup {offsets : List Nat} {first : Nat} (nodup : offsets.Nodup)
    (mem : first ∈ offsets) : offsets.length = 1 ↔ ∀ n ∈ offsets, n = first := by
  constructor
  · intro length n nMem
    obtain ⟨single, rfl⟩ := List.length_eq_one_iff.mp length
    exact (List.mem_singleton.mp nMem).trans (List.mem_singleton.mp mem).symm
  · intro same
    match offsets, nodup with
    | [], _ => cases mem
    | [n], _ => rfl
    | n :: m :: later, nodup =>
      have equal : n = m := (same n (by simp)).trans (same m (by simp)).symm
      simp [equal] at nodup

theorem count_openedFrom_of_not_active {i : Nat} {spans : List Span} (opened : List Nat)
    (idle : ∀ span ∈ spans, i ∉ span.active) :
    (openedFrom opened spans).count i = (spans.flatMap Span.markers).count i := by
  induction spans generalizing opened with
  | nil => rfl
  | cons span spans ih =>
    obtain ⟨here, later⟩ := List.forall_mem_cons.mp idle
    have notOpened : i ∉ newlyOpened opened span.active :=
      fun mem => here ((newlyOpened_sublist opened span.active).subset mem)
    rw [openedFrom, List.flatMap_cons, List.count_append, List.count_append, List.count_append,
      List.count_eq_zero.mpr notOpened, ih span.active later, Nat.zero_add]

/-- Empty runs open as markers only, and others with the spans only. -/
theorem count_openings_of_nonempty {size i : Nat} {run : Run} (found : table[i]? = some run)
    (nonempty : run.isEmpty = false) :
    (partition nesting size table).openings.count i =
      (openingOffsets i [] (partition nesting size table).spans).length := by
  have unmarked : ∀ span ∈ (partition nesting size table).spans, i ∉ span.markers := by
    intro span mem
    rw [markers_of_mem_partition mem]
    exact not_marked_of_nonempty found nonempty span.start
  have untrailed : i ∉ (partition nesting size table).trailing := by
    rw [trailing_partition]
    exact not_marked_of_nonempty found nonempty size
  have once : ∀ span ∈ (partition nesting size table).spans, span.active.Nodup := by
    intro span mem
    obtain ⟨start, _, stop, _, rfl⟩ := mem_spans_partition mem
    exact active_nodup nesting table start stop
  rw [openings, List.count_append, List.count_eq_zero.mpr untrailed,
    count_openedFrom [] once unmarked, Nat.add_zero]

theorem mem_openingOffsets_partition (fits : ∀ run ∈ runs, run.check source = .ok ()) {i n : Nat}
    {run : Run} (found : (distinct runs)[i]? = some run) :
    n ∈ openingOffsets i [] (partition nesting source.byteSize (distinct runs)).spans ↔
      OpensAt nesting (distinct runs) i run n := by
  have isCut : ∀ run ∈ distinct runs, ∀ n, n = run.start ∨ n = run.stop →
      n ∈ cuts source.byteSize (distinct runs) := by
    intro run mem n isEnd
    exact mem_cuts.mpr (.inr (.inr ⟨run, mem, isEnd⟩))
  have ascending := cuts_ascending source.byteSize (distinct runs)
  obtain ⟨rest, cutsEq, final⟩ := exists_cuts_distinct fits
  rw [cutsEq] at ascending isCut
  have complete : ∀ run ∈ distinct runs, ∀ n, n = run.start ∨ n = run.stop → 0 ≤ n →
      n ∈ 0 :: rest := by
    intro run mem n isEnd _
    exact isCut run mem n isEnd
  have nothingBefore : ∀ j, j ∈ [] ↔ ReachesFromBefore (distinct runs) 0 j := by
    intro j
    constructor
    · intro mem
      cases mem
    · rintro ⟨other, _, before, _⟩
      exact absurd before (Nat.not_lt_zero _)
  simp only [partition, cutsEq, List.tail_cons]
  rw [mem_openingOffsets (start_le_stop_of_mem_distinct fits) ascending complete .nil nothingBefore
    found]
  constructor
  · exact And.right
  · intro opens
    refine ⟨?_, opens⟩
    obtain ⟨_, _, rfl | ⟨j, other, atPlace, _, _, isEnd⟩⟩ := opens
    · exact isCut run (List.mem_of_getElem? found) _ (.inl rfl)
    · exact isCut other (List.mem_of_getElem? atPlace) n (isEnd.imp Eq.symm Eq.symm)

section Composed

variable {i : Nat} {run : Run} (composed : compose source runs nesting = .ok c)
  (found : c.runs[i]? = some run)

include composed found

theorem count_openings_of_isEmpty (empty : run.isEmpty = true) : c.openings.count i = 1 := by
  obtain ⟨fits, rfl⟩ := compose_eq_ok_iff.mp composed
  have found : (distinct runs)[i]? = some run := by simpa [partition] using found
  rw [openings, List.count_append,
    count_openedFrom_of_not_active [] (not_active_of_isEmpty found empty), ← List.count_append]
  exact count_markers fits found empty

/-- Any other run opens once at each offset where it opens. -/
theorem exists_openingOffsets (nonempty : run.isEmpty = false) :
    ∃ offsets : List Nat, offsets.Nodup ∧
      (∀ n, n ∈ offsets ↔ OpensAt nesting c.runs.toList i run n) ∧
      c.openings.count i = offsets.length := by
  obtain ⟨fits, rfl⟩ := compose_eq_ok_iff.mp composed
  have found : (distinct runs)[i]? = some run := by simpa [partition] using found
  have tiles : Tiles 0 (partition nesting source.byteSize (distinct runs)).spans
      source.byteSize := tiles_partition fits
  refine ⟨openingOffsets i [] (partition nesting source.byteSize (distinct runs)).spans, ?_, ?_, ?_⟩
  · exact (tiles.starts_ascending.1.imp Nat.ne_of_lt).sublist (openingOffsets_sublist ..)
  · intro n
    exact mem_openingOffsets_partition fits found
  · exact count_openings_of_nonempty found nonempty

theorem opensAt_start (nonempty : run.isEmpty = false) :
    OpensAt nesting c.runs.toList i run run.start := by
  have mem : run ∈ c.runs.toList := Array.mem_toList_iff.mpr (Array.mem_of_getElem? found)
  have ordered := start_le_stop_of_compose composed run mem
  have unequal : run.start ≠ run.stop := by simpa [Run.isEmpty] using nonempty
  exact ⟨Nat.le_refl _, by omega, .inl rfl⟩

theorem one_le_count_openings : 1 ≤ c.openings.count i := by
  cases empty : run.isEmpty with
  | true => exact Nat.le_of_eq (count_openings_of_isEmpty composed found empty).symm
  | false =>
    obtain ⟨offsets, _, mem, count⟩ := exists_openingOffsets composed found empty
    rw [count]
    exact List.length_pos_of_mem ((mem _).mpr (opensAt_start composed found empty))

/-- A run opens once exactly when it is empty or no run outside it splits it. -/
theorem count_openings_eq_one_iff :
    c.openings.count i = 1 ↔ run.isEmpty = true ∨ Unsplit nesting c.runs.toList i run := by
  cases empty : run.isEmpty with
  | true => simp [count_openings_of_isEmpty composed found empty]
  | false =>
    obtain ⟨offsets, nodup, mem, count⟩ := exists_openingOffsets composed found empty
    have first := (mem _).mpr (opensAt_start composed found empty)
    rw [count, length_eq_one_iff_of_nodup nodup first,
      unsplit_iff (start_le_stop_of_compose composed)]
    simp [mem]

end Composed

end Hyperlisting.Composition
