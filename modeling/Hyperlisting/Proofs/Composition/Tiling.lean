import Hyperlisting.Proofs.Composition.Fidelity

/-! Spans between two cuts. No run ends inside a span, so the spans over a run follow each other
without gaps, and their texts make up the text of the run. -/

namespace Hyperlisting.Composition

variable {source : Text} {runs table : List Run} {nesting : Nesting} {first last n : Nat}
  {spans : List Span}

/-- No element of a strictly ascending list lies between two consecutive ones. -/
theorem le_or_le_of_mem_zip_tail {list : List Nat} (ascending : list.Pairwise (· < ·))
    {start stop : Nat} (pair : (start, stop) ∈ list.zip list.tail) (mem : n ∈ list) :
    n ≤ start ∨ stop ≤ n := by
  induction list with
  | nil => cases mem
  | cons first list ih =>
    cases list with
    | nil => cases pair
    | cons next list =>
      obtain ⟨least, later⟩ := List.pairwise_cons.mp ascending
      rcases List.mem_cons.mp pair with here | further
      · obtain ⟨rfl, rfl⟩ := Prod.mk.inj here
        rcases List.mem_cons.mp mem with rfl | mem
        · exact .inl (Nat.le_refl _)
        · rcases List.mem_cons.mp mem with rfl | mem
          · exact .inr (Nat.le_refl _)
          · exact .inr (Nat.le_of_lt ((List.pairwise_cons.mp later).1 n mem))
      · rcases List.mem_cons.mp mem with rfl | mem
        · exact .inl (Nat.le_of_lt (least start (List.of_mem_zip further).1))
        · exact ih later further mem

theorem le_or_le_of_mem_cuts {size : Nat} {span : Span}
    (mem : span ∈ (partition nesting size table).spans) (cut : n ∈ cuts size table) :
    n ≤ span.start ∨ span.stop ≤ n := by
  obtain ⟨⟨start, stop⟩, pair, rfl⟩ := List.mem_map.mp mem
  exact le_or_le_of_mem_zip_tail (cuts_ascending size table) pair cut

/-- No run starts or ends inside a span. -/
theorem le_or_le_of_mem_table {size : Nat} {span : Span} {run : Run}
    (mem : span ∈ (partition nesting size table).spans) (runMem : run ∈ table)
    (isEnd : n = run.start ∨ n = run.stop) : n ≤ span.start ∨ span.stop ≤ n :=
  le_or_le_of_mem_cuts mem (mem_cuts.mpr (.inr (.inr ⟨run, runMem, isEnd⟩)))

theorem Tiles.bounds (tiles : Tiles first spans last) :
    ∀ span ∈ spans, first ≤ span.start ∧ span.stop ≤ last := by
  induction spans generalizing first with
  | nil => exact fun span mem => absurd mem List.not_mem_nil
  | cons span spans ih =>
    obtain ⟨rfl, less, tiles⟩ := tiles
    refine List.forall_mem_cons.mpr ⟨⟨Nat.le_refl _, tiles.le⟩, ?_⟩
    intro later mem
    obtain ⟨above, below⟩ := ih tiles later mem
    exact ⟨by omega, below⟩

/-- Spans can be parted at an offset that lies inside none of them. -/
theorem Tiles.exists_split (tiles : Tiles first spans last) (above : first ≤ n) (below : n ≤ last)
    (apart : ∀ span ∈ spans, n ≤ span.start ∨ span.stop ≤ n) :
    ∃ before after, spans = before ++ after ∧ Tiles first before n ∧ Tiles n after last := by
  induction spans generalizing first with
  | nil =>
    obtain rfl : first = last := tiles
    obtain rfl : first = n := Nat.le_antisymm above below
    exact ⟨[], [], rfl, rfl, rfl⟩
  | cons span spans ih =>
    obtain ⟨rfl, less, tiles⟩ := tiles
    obtain ⟨here, later⟩ := List.forall_mem_cons.mp apart
    rcases here with atStart | beyond
    · obtain rfl : span.start = n := Nat.le_antisymm above atStart
      exact ⟨[], span :: spans, rfl, rfl, rfl, less, tiles⟩
    · obtain ⟨before, after, rfl, first, second⟩ := ih tiles beyond later
      exact ⟨span :: before, after, rfl, ⟨rfl, less, first⟩, second⟩

/-- Spans from one boundary of the text to another show what stands between the two. -/
theorem Tiles.flatMap_slice (tiles : Tiles first spans last)
    (boundary : ∀ span ∈ spans, source.isBoundary span.start = true)
    (start : source.isBoundary first = true) :
    (spans.flatMap fun span => source.slice span.start span.stop) = source.slice first last := by
  have rest : (source.dropBytes first).dropBytes (last - first) = source.dropBytes last := by
    rw [Text.dropBytes_dropBytes _ start, Nat.add_sub_cancel' tiles.le]
  have whole : source.slice first last ++ (source.dropBytes first).dropBytes (last - first) =
      source.dropBytes first := Text.takeBytes_append_dropBytes ..
  rw [rest] at whole
  exact (List.append_cancel_right (whole.trans (tiles.dropBytes_eq boundary))).symm

/-- The spans over a range show its text, if neither of its ends lies inside a span. -/
theorem Tiles.flatMap_slice_filter {start stop : Nat} (tiles : Tiles first spans last)
    (boundary : ∀ span ∈ spans, source.isBoundary span.start = true)
    (startBoundary : source.isBoundary start = true) (above : first ≤ start)
    (ordered : start ≤ stop) (below : stop ≤ last)
    (apart : ∀ n, n = start ∨ n = stop → ∀ span ∈ spans, n ≤ span.start ∨ span.stop ≤ n) :
    ((spans.filter fun span => start ≤ span.start && span.stop ≤ stop).flatMap fun span =>
      source.slice span.start span.stop) = source.slice start stop := by
  obtain ⟨before, rest, rfl, tilesBefore, tilesRest⟩ :=
    tiles.exists_split above (Nat.le_trans ordered below) (apart start (.inl rfl))
  obtain ⟨within, after, rfl, tilesWithin, tilesAfter⟩ := tilesRest.exists_split ordered below
    fun span mem => apart stop (.inr rfl) span (List.mem_append_right _ mem)
  have none : before.filter (fun span => start ≤ span.start && span.stop ≤ stop) = [] := by
    refine List.filter_eq_nil_iff.mpr fun span mem covered => ?_
    simp only [Bool.and_eq_true, decide_eq_true_eq] at covered
    have less := tilesBefore.start_lt_stop span mem
    have bounds := tilesBefore.bounds span mem
    omega
  have all : within.filter (fun span => start ≤ span.start && span.stop ≤ stop) = within := by
    refine List.filter_eq_self.mpr fun span mem => ?_
    simpa using tilesWithin.bounds span mem
  have noMore : after.filter (fun span => start ≤ span.start && span.stop ≤ stop) = [] := by
    refine List.filter_eq_nil_iff.mpr fun span mem covered => ?_
    simp only [Bool.and_eq_true, decide_eq_true_eq] at covered
    have less := tilesAfter.start_lt_stop span mem
    have bounds := tilesAfter.bounds span mem
    omega
  rw [List.filter_append, List.filter_append, none, all, noMore, List.nil_append, List.append_nil]
  exact tilesWithin.flatMap_slice
    (fun span mem => boundary span (List.mem_append_right _ (List.mem_append_left _ mem)))
    startBoundary

end Hyperlisting.Composition
