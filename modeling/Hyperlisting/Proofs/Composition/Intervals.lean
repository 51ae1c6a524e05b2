import Mathlib
import Hyperlisting.Proofs.Composition.Partition

/-! The spans of a composition as intervals: they tile the text, each lists the runs over it in
nesting order, and each empty run stands once, at its offset. -/

namespace Hyperlisting.Composition

variable {source : Text} {runs table : List Run} {nesting : Nesting} {c : Composition}

/-- The spans follow each other without gaps from one offset to another, and none is empty. -/
def Tiles : Nat → List Span → Nat → Prop
  | first, [], last => first = last
  | first, span :: spans, last =>
    span.start = first ∧ span.start < span.stop ∧ Tiles span.stop spans last

theorem tiles_zip {first last : Nat} {rest : List Nat} {entries : List Entry}
    (ascending : (first :: rest).Pairwise (· < ·)) (final : (first :: rest).getLast? = some last) :
    Tiles first (((first :: rest).zip rest).map fun (start, stop) =>
      spanBetween nesting entries start stop) last := by
  induction rest generalizing first with
  | nil => simpa [Tiles] using final
  | cons next rest ih =>
    obtain ⟨least, ascending⟩ := List.pairwise_cons.mp ascending
    exact ⟨rfl, least next List.mem_cons_self,
      ih ascending ((List.getLast?_cons_cons).symm.trans final)⟩

theorem Tiles.le {first last : Nat} {spans : List Span} (tiles : Tiles first spans last) :
    first ≤ last := by
  induction spans generalizing first with
  | nil => exact Nat.le_of_eq tiles
  | cons span spans ih =>
    obtain ⟨rfl, less, tiles⟩ := tiles
    exact Nat.le_trans (Nat.le_of_lt less) (ih tiles)

theorem Tiles.starts_ascending {first last : Nat} {spans : List Span}
    (tiles : Tiles first spans last) :
    (spans.map Span.start).Pairwise (· < ·) ∧ ∀ start ∈ spans.map Span.start, first ≤ start := by
  induction spans generalizing first with
  | nil => exact ⟨.nil, fun start mem => absurd mem List.not_mem_nil⟩
  | cons span spans ih =>
    obtain ⟨rfl, less, tiles⟩ := tiles
    obtain ⟨ascending, above⟩ := ih tiles
    constructor
    · refine List.pairwise_cons.mpr ⟨?_, ascending⟩
      intro start mem
      exact Nat.lt_of_lt_of_le less (above start mem)
    · refine List.forall_mem_cons.mpr ⟨Nat.le_refl _, ?_⟩
      intro start mem
      exact Nat.le_trans (Nat.le_of_lt less) (above start mem)

theorem Tiles.eq_nil {first last : Nat} {spans : List Span} (tiles : Tiles first spans last)
    (same : last = first) : spans = [] := by
  cases spans with
  | nil => rfl
  | cons span spans =>
    obtain ⟨rfl, less, tiles⟩ := tiles
    have := tiles.le
    omega

theorem tiles_partition (fits : ∀ run ∈ runs, run.check source = .ok ()) :
    Tiles 0 (partition nesting source.byteSize (distinct runs)).spans source.byteSize := by
  obtain ⟨rest, cutsEq, final⟩ := exists_cuts_distinct fits
  have ascending := cuts_ascending source.byteSize (distinct runs)
  simp only [partition, cutsEq, List.tail_cons]
  exact tiles_zip (cutsEq ▸ ascending) final

theorem mem_active {start stop i : Nat} :
    i ∈ (spanBetween nesting (entries table) start stop).active ↔
      ∃ run, table[i]? = some run ∧ run.isEmpty = false ∧ run.start ≤ start ∧ stop ≤ run.stop := by
  simp only [spanBetween, List.mem_map, List.mem_mergeSort, List.mem_filter, mem_entries,
    Entry.covers, Bool.and_eq_true, decide_eq_true_eq, Bool.not_eq_true']
  constructor
  · rintro ⟨entry, ⟨found, ⟨spanning, started⟩, reached⟩, rfl⟩
    exact ⟨entry.run, found, spanning, started, reached⟩
  · rintro ⟨run, found, spanning, started, reached⟩
    exact ⟨⟨i, run⟩, ⟨found, ⟨spanning, started⟩, reached⟩, rfl⟩

theorem active_pairwise (nesting : Nesting) (table : List Run) (start stop : Nat) :
    (spanBetween nesting (entries table) start stop).active.Pairwise (Precedes nesting table) := by
  have sorted := List.pairwise_mergeSort (Entry.nestsBefore_trans nesting)
    (Entry.nestsBefore_total nesting) ((entries table).filter (·.covers start stop))
  have distinctPlaces : (((entries table).filter (·.covers start stop)).mergeSort
      (Entry.nestsBefore nesting)).Pairwise fun entry other => entry.index ≠ other.index := by
    refine ((List.mergeSort_perm _ _).pairwise_iff Ne.symm).mpr ?_
    exact ((entries_ascending table).filter _).imp Nat.ne_of_lt
  refine List.pairwise_map.mpr (List.Pairwise.imp_of_mem ?_ (sorted.and distinctPlaces))
  intro entry other mem otherMem ⟨before, different⟩
  exact Entry.precedes_of_nestsBefore (List.mem_filter.mp (List.mem_mergeSort.mp mem)).1
    (List.mem_filter.mp (List.mem_mergeSort.mp otherMem)).1 before different

theorem active_nodup (nesting : Nesting) (table : List Run) (start stop : Nat) :
    (spanBetween nesting (entries table) start stop).active.Nodup := by
  refine (active_pairwise nesting table start stop).imp ?_
  rintro i _ precedes rfl
  exact precedes.irrefl

/-- The places of the empty runs at an offset, in the order of the table. -/
def markersAt (table : List Run) (offset : Nat) : List Nat :=
  (List.range table.length).filter fun i =>
    table[i]?.any fun run => run.isEmpty && run.start = offset

theorem mem_markersAt {offset i : Nat} :
    i ∈ markersAt table offset ↔
      ∃ run, table[i]? = some run ∧ run.isEmpty = true ∧ run.start = offset := by
  simp only [markersAt, List.mem_filter, List.mem_range, Option.any_eq_true,
    Bool.and_eq_true, decide_eq_true_eq]
  constructor
  · rintro ⟨_, run, found, empty, same⟩
    exact ⟨run, found, empty, same⟩
  · rintro ⟨run, found, empty, same⟩
    exact ⟨(List.getElem?_eq_some_iff.mp found).1, run, found, empty, same⟩

theorem markersAt_ascending (table : List Run) (offset : Nat) :
    (markersAt table offset).Pairwise (· < ·) :=
  List.pairwise_lt_range.filter _

theorem map_index_filter_marks (table : List Run) (offset : Nat) :
    ((entries table).filter (·.marks offset)).map Entry.index = markersAt table offset := by
  refine List.Pairwise.eq_of_mem_iff (r := (· < ·))
    (List.pairwise_map.mpr ((entries_ascending table).filter _))
    (markersAt_ascending table offset) fun i => ?_
  simp only [List.mem_map, List.mem_filter, mem_entries, Entry.marks, mem_markersAt,
    Bool.and_eq_true, decide_eq_true_eq]
  constructor
  · rintro ⟨entry, ⟨found, empty, same⟩, rfl⟩
    exact ⟨entry.run, found, empty, same⟩
  · rintro ⟨run, found, empty, same⟩
    exact ⟨⟨i, run⟩, ⟨found, empty, same⟩, rfl⟩

/-- What stands at the starts of the spans and at the end of the text stands at the cuts. -/
theorem flatMap_markers_append (nesting : Nesting) (table : List Run) {first last : Nat}
    {rest : List Nat} (final : (first :: rest).getLast? = some last) :
    ((((first :: rest).zip rest).map fun (start, stop) =>
        spanBetween nesting (entries table) start stop).flatMap Span.markers) ++
      markersAt table last = (first :: rest).flatMap (markersAt table) := by
  induction rest generalizing first with
  | nil =>
    obtain rfl : first = last := by simpa using final
    simp
  | cons next rest ih =>
    have later := ih (by simpa using final)
    simp only [List.zip_cons_cons, List.map_cons, List.flatMap_cons, List.append_assoc] at later ⊢
    rw [later]
    simp only [spanBetween, map_index_filter_marks]

theorem count_flatMap_markersAt {size i : Nat} {run : Run} (found : table[i]? = some run)
    (empty : run.isEmpty = true) :
    ((cuts size table).flatMap (markersAt table)).count i = 1 := by
  have cut : run.start ∈ cuts size table :=
    mem_cuts.mpr (.inr (.inr ⟨run, List.mem_of_getElem? found, .inl rfl⟩))
  refine List.count_eq_one_of_mem (List.nodup_flatMap.mpr ⟨?_, ?_⟩)
    (List.mem_flatMap.mpr ⟨_, cut, mem_markersAt.mpr ⟨run, found, empty, rfl⟩⟩)
  · intro offset _
    exact (markersAt_ascending table offset).imp Nat.ne_of_lt
  · refine (cuts_ascending size table).imp ?_
    intro offset later less j member laterMember
    obtain ⟨run, atPlace, _, rfl⟩ := mem_markersAt.mp member
    obtain ⟨other, atPlace', _, rfl⟩ := mem_markersAt.mp laterMember
    obtain rfl := Option.some.inj (atPlace.symm.trans atPlace')
    omega

theorem count_of_not_active {i : Nat} {spans : List Span}
    (idle : ∀ span ∈ spans, i ∉ span.active) :
    (spans.flatMap fun span => span.active ++ span.markers).count i =
      (spans.flatMap Span.markers).count i := by
  induction spans with
  | nil => rfl
  | cons span spans ih =>
    obtain ⟨here, later⟩ := List.forall_mem_cons.mp idle
    simp only [List.flatMap_cons, List.count_append, ih later, List.count_eq_zero.mpr here,
      Nat.zero_add]

theorem exists_kept {run : Run} (mem : run ∈ runs) :
    ∃ kept ∈ distinct runs, kept.repeats run = true := by
  induction runs with
  | nil => cases mem
  | cons first runs ih =>
    rw [distinct_cons]
    rcases List.mem_cons.mp mem with rfl | later
    · exact ⟨run, List.mem_cons_self, Run.repeats_refl run⟩
    · obtain ⟨kept, keptMem, repeats⟩ := ih later
      cases repeated : first.repeats kept with
      | true => exact ⟨first, List.mem_cons_self, Run.repeats_trans repeated repeats⟩
      | false =>
        refine ⟨kept, List.mem_cons_of_mem _ (List.mem_filter.mpr ⟨keptMem, ?_⟩), repeats⟩
        simp [repeated]

/-- Dropping runs that repeat others drops no cut. -/
theorem mem_cuts_distinct {n size : Nat} :
    n ∈ cuts size (distinct runs) ↔
      n = 0 ∨ n = size ∨ ∃ run ∈ runs, n = run.start ∨ n = run.stop := by
  rw [mem_cuts]
  refine or_congr_right (or_congr_right ⟨?_, ?_⟩)
  · rintro ⟨run, mem, isEnd⟩
    exact ⟨run, mem_of_mem_distinct mem, isEnd⟩
  · rintro ⟨run, mem, isEnd⟩
    obtain ⟨kept, keptMem, repeats⟩ := exists_kept mem
    simp only [Run.repeats, Bool.and_eq_true, beq_iff_eq] at repeats
    exact ⟨kept, keptMem, by rwa [repeats.1.1, repeats.1.2]⟩

theorem mem_spans_partition {size : Nat} {span : Span}
    (mem : span ∈ (partition nesting size table).spans) :
    ∃ start ∈ cuts size table, ∃ stop ∈ cuts size table,
      span = spanBetween nesting (entries table) start stop := by
  obtain ⟨⟨start, stop⟩, zipped, rfl⟩ := List.mem_map.mp mem
  obtain ⟨startMem, stopMem⟩ := List.of_mem_zip zipped
  exact ⟨start, startMem, stop, List.mem_of_mem_tail stopMem, rfl⟩

theorem markers_of_mem_partition {size : Nat} {span : Span}
    (mem : span ∈ (partition nesting size table).spans) :
    span.markers = markersAt table span.start := by
  obtain ⟨start, _, stop, _, rfl⟩ := mem_spans_partition mem
  exact map_index_filter_marks table start

theorem trailing_partition (nesting : Nesting) (size : Nat) (table : List Run) :
    (partition nesting size table).trailing = markersAt table size :=
  map_index_filter_marks table size

theorem not_marked_of_nonempty {i : Nat} {run : Run} (found : table[i]? = some run)
    (nonempty : run.isEmpty = false) (offset : Nat) : i ∉ markersAt table offset := by
  intro mem
  obtain ⟨other, found', empty, _⟩ := mem_markersAt.mp mem
  obtain rfl := Option.some.inj (found.symm.trans found')
  simp [nonempty] at empty

theorem not_active_of_isEmpty {size i : Nat} {run : Run} (found : table[i]? = some run)
    (empty : run.isEmpty = true) : ∀ span ∈ (partition nesting size table).spans,
      i ∉ span.active := by
  intro span mem active
  obtain ⟨start, _, stop, _, rfl⟩ := mem_spans_partition mem
  obtain ⟨other, found', spanning, _⟩ := mem_active.mp active
  obtain rfl := Option.some.inj (found.symm.trans found')
  simp [spanning] at empty

theorem count_markers (fits : ∀ run ∈ runs, run.check source = .ok ()) {i : Nat} {run : Run}
    (found : (distinct runs)[i]? = some run) (empty : run.isEmpty = true) :
    ((partition nesting source.byteSize (distinct runs)).spans.flatMap Span.markers ++
      (partition nesting source.byteSize (distinct runs)).trailing).count i = 1 := by
  obtain ⟨rest, cutsEq, final⟩ := exists_cuts_distinct fits
  have once : ((cuts source.byteSize (distinct runs)).flatMap
      (markersAt (distinct runs))).count i = 1 := count_flatMap_markersAt found empty
  rw [cutsEq, ← flatMap_markers_append nesting (distinct runs) final] at once
  simpa only [partition, cutsEq, List.tail_cons, map_index_filter_marks] using once

/-- What it is to be the interval partition of a text by a list of runs. -/
structure IsPartition (source : Text) (runs : List Run) (nesting : Nesting) (c : Composition) :
    Prop where
  /-- The table leaves out the runs that repeat an earlier one. -/
  table : c.runs.toList =
    (runs.zipIdx.filter fun (run, i) => !(runs.take i).any (·.repeats run)).map Prod.fst
  /-- The spans lie between the ends of the text and of the runs, and no other offsets. -/
  bounds : ∃ bounds : List Nat, bounds.Pairwise (· < ·) ∧
    (∀ n, n ∈ bounds ↔
      n = 0 ∨ n = source.byteSize ∨ ∃ run ∈ runs, n = run.start ∨ n = run.stop) ∧
    c.spans.map (fun span => (span.start, span.stop)) = bounds.zip bounds.tail
  tiles : Tiles 0 c.spans source.byteSize
  none_of_empty : source.byteSize = 0 → c.spans = []
  active : ∀ span ∈ c.spans, ∀ i, i ∈ span.active ↔
    ∃ run, c.runs[i]? = some run ∧ run.isEmpty = false ∧
      run.start ≤ span.start ∧ span.stop ≤ run.stop
  nested : ∀ span ∈ c.spans,
    span.active.Nodup ∧ span.active.Pairwise (Precedes nesting c.runs.toList)
  markers : ∀ span ∈ c.spans, span.markers = markersAt c.runs.toList span.start
  trailing : c.trailing = markersAt c.runs.toList source.byteSize
  once : ∀ i run, c.runs[i]? = some run → run.isEmpty = true →
    (c.spans.flatMap (fun span => span.active ++ span.markers) ++ c.trailing).count i = 1

/-- What the sweep makes of runs that fit a text is their interval partition. -/
theorem compose_isPartition (composed : compose source runs nesting = .ok c) :
    IsPartition source runs nesting c := by
  obtain ⟨fits, rfl⟩ := compose_eq_ok_iff.mp composed
  constructor
  case table => simpa [partition] using distinct_eq_filter runs
  case bounds =>
    refine ⟨cuts source.byteSize (distinct runs), cuts_ascending .., fun n => mem_cuts_distinct, ?_⟩
    simp [partition, spanBetween, Function.comp_def]
  case tiles => exact tiles_partition fits
  case none_of_empty => exact (tiles_partition fits).eq_nil
  case active =>
    intro span mem i
    obtain ⟨start, _, stop, _, rfl⟩ := mem_spans_partition mem
    have covering : i ∈ (spanBetween nesting (entries (distinct runs)) start stop).active ↔ _ :=
      mem_active
    simpa [partition] using covering
  case nested =>
    intro span mem
    obtain ⟨start, _, stop, _, rfl⟩ := mem_spans_partition mem
    have sorted := active_pairwise nesting (distinct runs) start stop
    exact ⟨active_nodup nesting (distinct runs) start stop, by simpa [partition] using sorted⟩
  case markers =>
    intro span mem
    rw [markers_of_mem_partition mem]
    simp [partition]
  case trailing =>
    rw [trailing_partition]
    simp [partition]
  case once =>
    intro i run found empty
    have found : (distinct runs)[i]? = some run := by simpa [partition] using found
    rw [List.count_append, count_of_not_active (not_active_of_isEmpty found empty),
      ← List.count_append]
    exact count_markers fits found empty

/-- Two runs that overlap in part, one that repeats the first, and an empty run at each kind of
place. -/
def overlappingRuns : List Run :=
  [⟨0, 2, .style "k".toList, none⟩, ⟨1, 3, .anchor "x".toList, none⟩,
    ⟨0, 2, .style "k".toList, some "again".toList⟩, ⟨1, 1, .anchor "y".toList, none⟩,
    ⟨3, 3, .anchor "z".toList, none⟩]

theorem compose_overlappingRuns_isPartition :
    ∃ c, compose "abc".toList overlappingRuns .linksInnermost = .ok c ∧
      c.spans.map Span.active = [[0], [0, 1], [1]] ∧
      IsPartition "abc".toList overlappingRuns .linksInnermost c := by
  have composed : compose "abc".toList overlappingRuns .linksInnermost =
      .ok { runs := #[⟨0, 2, .style "k".toList, none⟩, ⟨1, 3, .anchor "x".toList, none⟩,
              ⟨1, 1, .anchor "y".toList, none⟩, ⟨3, 3, .anchor "z".toList, none⟩]
            spans := [⟨0, 1, [0], []⟩, ⟨1, 2, [0, 1], [2]⟩, ⟨2, 3, [1], []⟩]
            trailing := [3] } := by
    -- This states equations of core functions that parts of Mathlib state too; hence the import.
    cbv
  exact ⟨_, composed, rfl, compose_isPartition composed⟩

end Hyperlisting.Composition
