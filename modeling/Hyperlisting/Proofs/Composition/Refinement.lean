import Hyperlisting.Proofs.Composition.Tiling

/-! One run more. A run that repeats an earlier one changes nothing. Any other run is added at the end
of the table, and its ends cut the spans that were there into parts. Apart from the new run, each part
lists what its span listed, and the markers stay with the first part. -/

namespace Hyperlisting.Composition

variable {source : Text} {runs table : List Run} {added run : Run} {nesting : Nesting}
  {c : Composition} {size : Nat}

theorem distinct_append_of_fresh (fresh : ∀ run ∈ runs, run.repeats added = false) :
    distinct (runs ++ [added]) = distinct runs ++ [added] := by
  induction runs with
  | nil => rfl
  | cons run runs ih =>
    obtain ⟨here, later⟩ := List.forall_mem_cons.mp fresh
    rw [List.cons_append, distinct_cons, distinct_cons, ih later, List.filter_append]
    simp [here]

theorem distinct_append_of_repeats (repeated : ∃ run ∈ runs, run.repeats added = true) :
    distinct (runs ++ [added]) = distinct runs := by
  induction runs with
  | nil => simp at repeated
  | cons run runs ih =>
    rw [List.cons_append, distinct_cons, distinct_cons]
    by_cases later : ∃ run ∈ runs, run.repeats added = true
    · rw [ih later]
    · have here : run.repeats added = true := by simpa [later] using repeated
      have fresh : ∀ other ∈ runs, other.repeats added = false := by simpa using later
      rw [distinct_append_of_fresh fresh, List.filter_append]
      simp [here]

/-- Another place than the added run's holds what it held before. -/
theorem getElem?_append_singleton_iff (added : Run) {i : Nat} :
    (table ++ [added])[i]? = some run ∧ i ≠ table.length ↔ table[i]? = some run := by
  constructor
  · rintro ⟨found, different⟩
    have bound := (List.getElem?_eq_some_iff.mp found).1
    rw [List.length_append, List.length_singleton] at bound
    rwa [List.getElem?_append_left (by omega)] at found
  · intro found
    have bound := (List.getElem?_eq_some_iff.mp found).1
    exact ⟨(List.getElem?_append_left bound).trans found, Nat.ne_of_lt bound⟩

theorem Precedes.append {i j : Nat} (before : Precedes nesting table i j) (added : Run) :
    Precedes nesting (table ++ [added]) i j := by
  obtain ⟨run, other, found, found', order⟩ := before
  exact ⟨run, other, ((getElem?_append_singleton_iff added).mpr found).1,
    ((getElem?_append_singleton_iff added).mpr found').1, order⟩

theorem cuts_subset_append (size : Nat) (table : List Run) (added : Run) :
    cuts size table ⊆ cuts size (table ++ [added]) := by
  intro n cut
  rw [mem_cuts] at cut ⊢
  refine cut.imp_right (Or.imp_right ?_)
  rintro ⟨run, mem, isEnd⟩
  exact ⟨run, List.mem_append_left _ mem, isEnd⟩

theorem filter_markersAt_append (table : List Run) (added : Run) (offset : Nat) :
    (markersAt (table ++ [added]) offset).filter (· ≠ table.length) = markersAt table offset := by
  refine List.Pairwise.eq_of_mem_iff (r := (· < ·)) ((markersAt_ascending _ offset).filter _)
    (markersAt_ascending table offset) fun i => ?_
  simp only [List.mem_filter, mem_markersAt, decide_eq_true_eq]
  constructor
  · rintro ⟨⟨run, found, here⟩, different⟩
    exact ⟨run, (getElem?_append_singleton_iff added).mp ⟨found, different⟩, here⟩
  · rintro ⟨run, found, here⟩
    obtain ⟨found, different⟩ := (getElem?_append_singleton_iff added).mpr found
    exact ⟨⟨run, found, here⟩, different⟩

/-- Consecutive spans into which a span is cut, for the run at one place of the table: apart from
that run they list what the span lists, and the first has the span's markers. -/
structure IsCutInto (place : Nat) (span : Span) (parts : List Span) : Prop where
  tiles : Tiles span.start parts span.stop
  active : ∀ part ∈ parts, part.active.filter (· ≠ place) = span.active
  marked : parts.head?.map (fun part => part.markers.filter (· ≠ place)) = some span.markers
  unmarked : ∀ part ∈ parts.tail, part.markers.filter (· ≠ place) = []

/-- Spans that tile the same range as others, none of which reaches into two of these, come in groups:
one group for each. -/
theorem Tiles.exists_groups {first last : Nat} {spans parts : List Span}
    {related : Span → List Span → Prop} (coarse : Tiles first spans last)
    (fine : Tiles first parts last)
    (apart : ∀ span ∈ spans, ∀ part ∈ parts, span.stop ≤ part.start ∨ part.stop ≤ span.stop)
    (each : ∀ span ∈ spans, ∀ group, group ⊆ parts → Tiles span.start group span.stop →
      related span group) :
    ∃ groups : List (List Span), parts = groups.flatten ∧ List.Forall₂ related spans groups := by
  induction spans generalizing first parts with
  | nil =>
    obtain rfl : first = last := coarse
    exact ⟨[], fine.eq_nil rfl, .nil⟩
  | cons span spans ih =>
    obtain ⟨rfl, less, coarse⟩ := coarse
    obtain ⟨here, later⟩ := List.forall_mem_cons.mp apart
    obtain ⟨hereEach, laterEach⟩ := List.forall_mem_cons.mp each
    obtain ⟨group, rest, rfl, tilesGroup, tilesRest⟩ :=
      fine.exists_split (Nat.le_of_lt less) coarse.le here
    obtain ⟨groups, rfl, all⟩ := ih coarse tilesRest
      (fun span mem part partMem => later span mem part (List.mem_append_right _ partMem))
      (fun span mem group sub => laterEach span mem group (List.subset_append_of_subset_right _ sub))
    exact ⟨group :: groups, rfl,
      .cons (hereEach group (List.subset_append_left _ _) tilesGroup) all⟩

/-- Where no cut lies inside a span, a run of the table covers the span if it covers a part of it. -/
theorem covers_iff_of_part {span part : Span} (mem : span ∈ (partition nesting size table).spans)
    (runMem : run ∈ table) (above : span.start ≤ part.start) (less : part.start < part.stop)
    (below : part.stop ≤ span.stop) :
    run.start ≤ part.start ∧ part.stop ≤ run.stop ↔ run.start ≤ span.start ∧ span.stop ≤ run.stop := by
  have startCut := le_or_le_of_mem_table mem runMem (.inl rfl)
  have stopCut := le_or_le_of_mem_table mem runMem (.inr rfl)
  omega

theorem active_of_part {span part : Span} (mem : span ∈ (partition nesting size table).spans)
    (partMem : part ∈ (partition nesting size (table ++ [added])).spans)
    (above : span.start ≤ part.start) (less : part.start < part.stop)
    (below : part.stop ≤ span.stop) :
    part.active.filter (· ≠ table.length) = span.active := by
  have covering {i : Nat} {run : Run} (found : table[i]? = some run) :=
    covers_iff_of_part mem (List.mem_of_getElem? found) above less below
  obtain ⟨start, _, stop, _, rfl⟩ := mem_spans_partition mem
  obtain ⟨partStart, _, partStop, _, rfl⟩ := mem_spans_partition partMem
  refine List.Pairwise.eq_of_mem_iff ((active_pairwise nesting _ partStart partStop).filter _)
    ((active_pairwise nesting table start stop).imp fun before => before.append added) fun i => ?_
  simp only [List.mem_filter, mem_active, decide_eq_true_eq]
  constructor
  · rintro ⟨⟨run, found, spanning, reach⟩, different⟩
    have found := (getElem?_append_singleton_iff added).mp ⟨found, different⟩
    exact ⟨run, found, spanning, (covering found).mp reach⟩
  · rintro ⟨run, found, spanning, reach⟩
    have reach := (covering found).mpr reach
    obtain ⟨found, different⟩ := (getElem?_append_singleton_iff added).mpr found
    exact ⟨⟨run, found, spanning, reach⟩, different⟩

theorem markers_of_part {part : Span}
    (partMem : part ∈ (partition nesting size (table ++ [added])).spans) :
    part.markers.filter (· ≠ table.length) = markersAt table part.start := by
  rw [markers_of_mem_partition partMem, filter_markersAt_append]

/-- No empty run stands inside a span. -/
theorem markersAt_eq_nil {span : Span} (mem : span ∈ (partition nesting size table).spans)
    {offset : Nat} (above : span.start < offset) (below : offset < span.stop) :
    markersAt table offset = [] := by
  refine List.eq_nil_iff_forall_not_mem.mpr fun i marked => ?_
  obtain ⟨run, found, _, rfl⟩ := mem_markersAt.mp marked
  have := le_or_le_of_mem_table mem (List.mem_of_getElem? found) (.inl rfl)
  omega

theorem isCutInto_of_tiles {span : Span} {parts : List Span}
    (mem : span ∈ (partition nesting size table).spans) (less : span.start < span.stop)
    (sub : parts ⊆ (partition nesting size (table ++ [added])).spans)
    (tiles : Tiles span.start parts span.stop) : IsCutInto table.length span parts := by
  have within := tiles.bounds
  have spanning := tiles.start_lt_stop
  constructor
  case tiles => exact tiles
  case active =>
    intro part partMem
    obtain ⟨above, below⟩ := within part partMem
    exact active_of_part mem (sub partMem) above (spanning part partMem) below
  case marked =>
    cases parts with
    | nil => exact absurd tiles (Nat.ne_of_lt less)
    | cons part parts =>
      obtain ⟨atStart, _, _⟩ := tiles
      rw [List.head?_cons, Option.map_some, markers_of_part (sub List.mem_cons_self), atStart,
        markers_of_mem_partition mem]
  case unmarked =>
    cases parts with
    | nil => exact fun part none => absurd none List.not_mem_nil
    | cons first parts =>
      obtain ⟨atStart, firstLess, tiles⟩ := tiles
      intro part partMem
      rw [markers_of_part (sub (List.mem_cons_of_mem _ partMem))]
      have after := (tiles.bounds part partMem).1
      have below := (within part (List.mem_cons_of_mem _ partMem)).2
      have less := spanning part (List.mem_cons_of_mem _ partMem)
      exact markersAt_eq_nil mem (by omega) (by omega)

/-- A run that fits the text composes with runs that do. If it repeats one of them, nothing changes.
If it repeats none, it comes last in the table and only cuts the spans. -/
theorem compose_append (composed : compose source runs nesting = .ok c)
    (fits : added.check source = .ok ()) :
    ∃ c', compose source (runs ++ [added]) nesting = .ok c' ∧
      ((∃ run ∈ runs, run.repeats added = true) → c' = c) ∧
      ((∀ run ∈ runs, run.repeats added = false) →
        c'.runs = c.runs.push added ∧
        (∃ groups : List (List Span), c'.spans = groups.flatten ∧
          List.Forall₂ (IsCutInto c.runs.size) c.spans groups) ∧
        c'.trailing.filter (· ≠ c.runs.size) = c.trailing) := by
  obtain ⟨checked, rfl⟩ := compose_eq_ok_iff.mp composed
  have allChecked : ∀ run ∈ runs ++ [added], run.check source = .ok () :=
    List.forall_mem_append.mpr ⟨checked, List.forall_mem_singleton.mpr fits⟩
  have tiles : Tiles 0 (partition nesting _ (distinct runs)).spans _ := tiles_partition checked
  have fine : Tiles 0 (partition nesting _ (distinct (runs ++ [added]))).spans _ :=
    tiles_partition allChecked
  refine ⟨_, compose_eq_ok_iff.mpr ⟨allChecked, rfl⟩, ?repeated, ?fresh⟩
  case repeated =>
    intro repeated
    rw [distinct_append_of_repeats repeated]
  case fresh =>
    intro fresh
    rw [distinct_append_of_fresh fresh] at fine ⊢
    have sizeEq : (partition nesting source.byteSize (distinct runs)).runs.size =
        (distinct runs).length := List.size_toArray
    rw [sizeEq]
    refine ⟨List.push_toArray .. |>.symm, ?_, ?_⟩
    · refine tiles.exists_groups fine ?_ ?_
      · intro span mem part partMem
        obtain ⟨start, _, stop, cut, rfl⟩ := mem_spans_partition mem
        exact le_or_le_of_mem_cuts partMem (cuts_subset_append _ _ added cut)
      · intro span mem group sub within
        exact isCutInto_of_tiles mem (tiles.start_lt_stop span mem) sub within
    · rw [trailing_partition, trailing_partition, filter_markersAt_append]

/-- A highlight with an anchor inside it, and an anchor behind it. -/
def anchoredHighlight : List Run :=
  [⟨0, 3, .style "k".toList, none⟩, ⟨1, 1, .anchor "x".toList, none⟩,
    ⟨4, 4, .anchor "y".toList, none⟩]

/-- A link that begins inside the highlight and ends behind it. -/
def crossingLink : Run := ⟨2, 4, .link ⟨⟨"/b".toList⟩, none⟩, none⟩

theorem compose_append_crossingLink :
    ∃ c c', compose "abcd".toList anchoredHighlight .linksInnermost = .ok c ∧
      compose "abcd".toList (anchoredHighlight ++ [crossingLink]) .linksInnermost = .ok c' ∧
      c.spans.map Span.active = [[0], [0], []] ∧
      c'.spans.map Span.active = [[0], [0], [0, 3], [3]] ∧
      ∃ groups : List (List Span), c'.spans = groups.flatten ∧
        List.Forall₂ (IsCutInto c.runs.size) c.spans groups := by
  have composed : compose "abcd".toList anchoredHighlight .linksInnermost =
      .ok { runs := anchoredHighlight.toArray
            spans := [⟨0, 1, [0], []⟩, ⟨1, 3, [0], [1]⟩, ⟨3, 4, [], []⟩]
            trailing := [2] } := by
    cbv
  have longer : compose "abcd".toList (anchoredHighlight ++ [crossingLink]) .linksInnermost =
      .ok { runs := (anchoredHighlight ++ [crossingLink]).toArray
            spans := [⟨0, 1, [0], []⟩, ⟨1, 2, [0], [1]⟩, ⟨2, 3, [0, 3], []⟩, ⟨3, 4, [3], []⟩]
            trailing := [2] } := by
    cbv
  have fits : crossingLink.check "abcd".toList = .ok () := by decide
  obtain ⟨c', composed', _, fresh⟩ := compose_append composed fits
  obtain rfl := Except.ok.inj (longer.symm.trans composed')
  exact ⟨_, _, composed, longer, rfl, rfl, (fresh (by decide)).2.1⟩

end Hyperlisting.Composition
