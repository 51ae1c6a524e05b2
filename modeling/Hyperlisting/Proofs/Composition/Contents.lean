import Hyperlisting.Proofs.Composition.Openings
import Hyperlisting.Proofs.Composition.Tiling
import Hyperlisting.Proofs.Markup.Contents

/-! What the elements of a page hold. A run's element holds the text of the spans that follow until
it closes, so its elements together hold its text, and when it opens once that one element does. -/

namespace Hyperlisting.Composition

open Markup

variable {source : Text} {runs : List Run} {nesting : Nesting} {c : Composition} {page : Path}
  {element : Nat → Element} {i : Nat} {opened wanted : List Nat}

/-- How many places of a list, outermost first, stand inside one of them. -/
def depth (places : List Nat) (i : Nat) : Nat := places.reverse.idxOf i

theorem depth_cons_of_mem (a : Nat) (mem : i ∈ opened) : depth (a :: opened) i = depth opened i := by
  rw [depth, List.reverse_cons, List.idxOf_append_of_mem (List.mem_reverse.mpr mem), depth]

theorem depth_cons_self (fresh : i ∉ opened) : depth (i :: opened) i = opened.length := by
  rw [depth, List.reverse_cons, List.idxOf_append_of_notMem (mt List.mem_reverse.mp fresh)]
  simp

theorem depth_lt_length (mem : i ∈ opened) : depth opened i < opened.length := by
  rw [depth, ← List.length_reverse]
  exact List.idxOf_lt_length_of_mem (List.mem_reverse.mpr mem)

variable (element) (rest : List Piece)

theorem textWithin_reopening (inner : Nat) (opened wanted : List Nat) :
    textWithin (opened.length + inner) (opened.reverse.map (Piece.closing <| element ·) ++
        wanted.map (Piece.opening <| element ·) ++ rest) =
      textWithin (wanted.length + inner) rest := by
  have closed := textWithin_closings inner ((wanted.map element).map .opening ++ rest)
    (opened.reverse.map element)
  have reopened := textWithin_openings inner rest (wanted.map element)
  simpa [Function.comp_def] using closed.trans reopened

/-- What closes and opens inside an element ends nothing that it holds. -/
theorem textWithin_transition (inner : Nat) (opened wanted : List Nat) :
    textWithin (opened.length + inner) (transition element opened wanted ++ rest) =
      textWithin (wanted.length + inner) rest := by
  fun_induction transition element opened wanted generalizing inner with
  | case1 opened a wanted ih =>
    rw [List.length_cons, List.length_cons, Nat.add_right_comm, Nat.add_right_comm wanted.length]
    exact ih (inner + 1)
  | case2 a opened b wanted different =>
    exact textWithin_reopening element rest inner (a :: opened) (b :: wanted)
  | case3 opened wanted => exact textWithin_reopening element rest inner opened wanted

theorem textWithin_closed (mem : i ∈ opened) (wanted : List Nat) :
    textWithin (depth opened i) (opened.reverse.map (Piece.closing <| element ·) ++
      wanted.map (Piece.opening <| element ·) ++ rest) = [] := by
  have within : depth opened i < (opened.reverse.map element).length := by
    simpa using depth_lt_length mem
  have closed := textWithin_closings_of_lt
    (wanted.map (Piece.opening <| element ·) ++ rest) within
  simpa [Function.comp_def] using closed

/-- An open element goes on holding text if its place stays open, and is over otherwise. -/
theorem textWithin_transition_of_mem (nodup : opened.Nodup) (wantedNodup : wanted.Nodup)
    (mem : i ∈ opened) :
    textWithin (depth opened i) (transition element opened wanted ++ rest) =
      if i ∈ wanted ∧ i ∉ newlyOpened opened wanted then textWithin (depth wanted i) rest
      else [] := by
  fun_induction transition element opened wanted with
  | case1 opened a wanted ih =>
    obtain ⟨fresh, nodup⟩ := List.nodup_cons.mp nodup
    obtain ⟨wantedFresh, wantedNodup⟩ := List.nodup_cons.mp wantedNodup
    rw [newlyOpened, if_pos rfl]
    by_cases same : i = a
    · subst same
      have stays : i ∉ newlyOpened opened wanted :=
        fun newly => wantedFresh ((newlyOpened_sublist opened wanted).subset newly)
      rw [if_pos ⟨List.mem_cons_self, stays⟩, depth_cons_self fresh, depth_cons_self wantedFresh]
      exact textWithin_transition element rest 0 opened wanted
    · have mem : i ∈ opened := (List.mem_cons.mp mem).resolve_left same
      rw [depth_cons_of_mem a mem, ih nodup wantedNodup mem]
      simp only [List.mem_cons, same, false_or]
      split
      · rename_i stays
        rw [depth_cons_of_mem a stays.1]
      · rfl
  | case2 a opened b wanted different =>
    rw [newlyOpened, if_neg different, if_neg fun stays => stays.2 stays.1]
    exact textWithin_closed element rest mem (b :: wanted)
  | case3 opened wanted shape =>
    rw [newlyOpened_eq_wanted shape, if_neg fun stays => stays.2 stays.1]
    exact textWithin_closed element rest mem wanted

theorem elementsHolding_openings (nodup : wanted.Nodup) :
    elementsHolding (wanted.map (Piece.opening <| element ·) ++ rest) =
      wanted.map (fun i => (element i, textWithin (depth wanted i) rest)) ++
        elementsHolding rest := by
  induction wanted with
  | nil => rfl
  | cons a wanted ih =>
    obtain ⟨fresh, nodup⟩ := List.nodup_cons.mp nodup
    have inside := textWithin_openings 0 rest (wanted.map element)
    have later : wanted.map (fun i => (element i, textWithin (depth (a :: wanted) i) rest)) =
        wanted.map fun i => (element i, textWithin (depth wanted i) rest) :=
      List.map_congr_left fun i mem => by rw [depth_cons_of_mem a mem]
    rw [List.map_map, List.length_map] at inside
    rw [List.map_cons, List.cons_append, elementsHolding, ih nodup, List.map_cons, later,
      depth_cons_self fresh]
    exact congrArg (fun text => (element a, text) :: _) inside

theorem elementsHolding_transition (opened : List Nat) (nodup : wanted.Nodup) :
    elementsHolding (transition element opened wanted ++ rest) =
      (newlyOpened opened wanted).map (fun i => (element i, textWithin (depth wanted i) rest)) ++
        elementsHolding rest := by
  have reopening (opened : List Nat) {wanted : List Nat} (nodup : wanted.Nodup) :
      elementsHolding (opened.reverse.map (Piece.closing <| element ·) ++
          wanted.map (Piece.opening <| element ·) ++ rest) =
        wanted.map (fun i => (element i, textWithin (depth wanted i) rest)) ++
          elementsHolding rest := by
    have closed := elementsHolding_closings (wanted.map (Piece.opening <| element ·) ++ rest)
      (opened.reverse.map element)
    rw [List.map_map] at closed
    rw [List.append_assoc]
    exact closed.trans (elementsHolding_openings element rest nodup)
  fun_induction transition element opened wanted with
  | case1 opened a wanted ih =>
    rw [newlyOpened, if_pos rfl, ih (List.nodup_cons.mp nodup).2]
    congr 1
    apply List.map_congr_left
    intro i newly
    rw [depth_cons_of_mem a ((newlyOpened_sublist opened wanted).subset newly)]
  | case2 a opened b wanted different =>
    rw [newlyOpened, if_neg different]
    exact reopening (a :: opened) nodup
  | case3 opened wanted shape =>
    rw [newlyOpened_eq_wanted shape]
    exact reopening opened nodup

/-- The text that an open place goes on to hold: that of the spans up to the first that does not
list it or opens it anew. -/
def textUntilClosed (i : Nat) (opened : List Nat) : List (Span × Text) → Text
  | [] => []
  | (span, text) :: spans =>
    if i ∈ span.active ∧ i ∉ newlyOpened opened span.active then
      text ++ textUntilClosed i span.active spans
    else []

/-- The places that some spans open, in order, each with the text that it holds until it closes. -/
def holdingsFrom (opened : List Nat) : List (Span × Text) → List (Nat × Text)
  | [] => []
  | (span, text) :: spans =>
    (newlyOpened opened span.active).map
        (fun i => (i, text ++ textUntilClosed i span.active spans)) ++
      span.markers.map (·, []) ++ holdingsFrom span.active spans

/-- The places that a composition opens, in order, each with the text that it holds. -/
def holdings (c : Composition) (source : Text) : List (Nat × Text) :=
  holdingsFrom [] (c.spanTexts source) ++ c.trailing.map (·, [])

theorem textWithin_markers (inner : Nat) (places : List Nat) (text : Text) :
    textWithin inner (places.flatMap (Piece.empty <| element ·) ++
      (text.map .character ++ rest)) = text ++ textWithin inner rest := by
  have empties := textWithin_empties inner (text.map .character ++ rest) (places.map element)
  rw [List.flatMap_map, textWithin_text] at empties
  exact empties

theorem textWithin_spanPieces {spans : List (Span × Text)} (nodup : opened.Nodup)
    (spansNodup : ∀ first ∈ spans, first.1.active.Nodup) (mem : i ∈ opened) :
    textWithin (depth opened i) (spanPieces element opened spans ++ rest) =
      textUntilClosed i opened spans := by
  induction spans generalizing opened with
  | nil =>
    rw [spanPieces, textWithin_transition_of_mem element rest nodup .nil mem]
    exact if_neg fun stays => List.not_mem_nil stays.1
  | cons first spans ih =>
    obtain ⟨span, text⟩ := first
    obtain ⟨here, later⟩ := List.forall_mem_cons.mp spansNodup
    rw [spanPieces, List.append_assoc, List.append_assoc, List.append_assoc,
      textWithin_transition_of_mem element _ nodup here mem, textUntilClosed]
    split
    · rename_i stays
      rw [textWithin_markers, ih here later stays.1]
    · rfl

theorem elementsHolding_markers (places : List Nat) (text : Text) :
    elementsHolding (places.flatMap (Piece.empty <| element ·) ++
        (text.map .character ++ rest)) =
      (places.map fun i => (element i, [])) ++ elementsHolding rest := by
  have empties := elementsHolding_empties (text.map .character ++ rest) (places.map element)
  rw [List.flatMap_map, List.map_map, elementsHolding_text] at empties
  exact empties

theorem elementsHolding_spanPieces {spans : List (Span × Text)} (opened : List Nat)
    (spansNodup : ∀ first ∈ spans, first.1.active.Nodup) :
    elementsHolding (spanPieces element opened spans ++ rest) =
      (holdingsFrom opened spans).map (fun (i, text) => (element i, text)) ++
        elementsHolding rest := by
  induction spans generalizing opened with
  | nil =>
    have nothing : newlyOpened opened [] = [] := List.sublist_nil.mp (newlyOpened_sublist opened [])
    rw [spanPieces, elementsHolding_transition element rest opened .nil, nothing]
    rfl
  | cons first spans ih =>
    obtain ⟨span, text⟩ := first
    obtain ⟨here, later⟩ := List.forall_mem_cons.mp spansNodup
    have held : (newlyOpened opened span.active).map (fun i => (element i,
          textWithin (depth span.active i) (span.markers.flatMap (Piece.empty <| element ·) ++
            (text.map .character ++ (spanPieces element span.active spans ++ rest))))) =
        (newlyOpened opened span.active).map fun i =>
          (element i, text ++ textUntilClosed i span.active spans) := by
      apply List.map_congr_left
      intro i newly
      have mem := (newlyOpened_sublist opened span.active).subset newly
      rw [textWithin_markers, textWithin_spanPieces element rest here later mem]
    rw [spanPieces, List.append_assoc, List.append_assoc, List.append_assoc,
      elementsHolding_transition element _ opened here, held, elementsHolding_markers,
      ih span.active later, holdingsFrom]
    simp [Function.comp_def]

/-- The document opens what the composition opens, and holds in each element what its place holds. -/
theorem contents_markup (nodup : ∀ span ∈ c.spans, span.active.Nodup) (fits : c.Fits source)
    (page : Path) :
    contents (c.markup source page) = (c.holdings source).map fun (i, text) =>
      ((c.element page i).openingTag, escape text) := by
  have spansNodup : ∀ first ∈ c.spanTexts source, first.1.active.Nodup := by
    rw [fits.spanTexts_eq, List.forall_mem_map]
    exact nodup
  have trailing := elementsHolding_empties [] (c.trailing.map (c.element page))
  rw [List.flatMap_map, List.append_nil, List.map_map] at trailing
  rw [markup, contents_print (c.pieces_plain source page), pieces,
    elementsHolding_spanPieces (c.element page) _ [] spansNodup, trailing, holdings]
  simp [elementsHolding, Function.comp_def]

theorem map_fst_holdingsFrom (opened : List Nat) (spans : List (Span × Text)) :
    (holdingsFrom opened spans).map Prod.fst = openedFrom opened (spans.map Prod.fst) := by
  induction spans generalizing opened with
  | nil => rfl
  | cons first spans ih =>
    obtain ⟨span, text⟩ := first
    simp [holdingsFrom, openedFrom, ih, Function.comp_def]

theorem map_fst_holdings (fits : c.Fits source) :
    (c.holdings source).map Prod.fst = c.openings := by
  rw [holdings, List.map_append, map_fst_holdingsFrom, fits.map_fst_spanTexts, openings]
  simp [Function.comp_def]

theorem mem_opened_of_not_newly (mem : i ∈ wanted) (stays : i ∉ newlyOpened opened wanted) :
    i ∈ opened := by
  fun_induction newlyOpened opened wanted with
  | case1 opened a wanted ih =>
    rcases List.mem_cons.mp mem with rfl | mem
    · exact List.mem_cons_self
    · exact List.mem_cons_of_mem _ (ih mem stays)
  | case2 a opened b wanted different => exact absurd mem stays
  | case3 opened wanted => exact absurd mem stays

/-- The text that the elements of one place hold, in the order in which they open. -/
def textOf (i : Nat) (holdings : List (Nat × Text)) : Text :=
  (holdings.filter (·.1 = i)).flatMap Prod.snd

theorem textOf_append (i : Nat) (holdings more : List (Nat × Text)) :
    textOf i (holdings ++ more) = textOf i holdings ++ textOf i more := by
  rw [textOf, List.filter_append, List.flatMap_append]
  rfl

theorem textOf_map {places : List Nat} (nodup : places.Nodup) (held : Nat → Text) :
    textOf i (places.map fun j => (j, held j)) = if i ∈ places then held i else [] := by
  rw [textOf, List.filter_map]
  have own : ((fun holding : Nat × Text => decide (holding.1 = i)) ∘ fun j => (j, held j)) =
      (· = i) := rfl
  rw [own, List.filter_eq, nodup.count]
  split <;> simp

/-- What a place holds, where it is open before and wherever it opens, is the text of the spans that
list it. -/
theorem textOf_holdingsFrom {spans : List (Span × Text)}
    (nodup : ∀ first ∈ spans, first.1.active.Nodup)
    (unmarked : ∀ first ∈ spans, i ∉ first.1.markers) :
    (if i ∈ opened then textUntilClosed i opened spans else []) ++
        textOf i (holdingsFrom opened spans) =
      (spans.filter (i ∈ ·.1.active)).flatMap Prod.snd := by
  induction spans generalizing opened with
  | nil => simp [holdingsFrom, textUntilClosed, textOf]
  | cons first spans ih =>
    obtain ⟨span, text⟩ := first
    obtain ⟨here, later⟩ := List.forall_mem_cons.mp nodup
    obtain ⟨bare, laterBare⟩ := List.forall_mem_cons.mp unmarked
    have newly := here.sublist (newlyOpened_sublist opened span.active)
    have markers : textOf i (span.markers.map (·, [])) = [] := by
      simp [textOf, List.flatMap_eq_nil_iff]
    rw [holdingsFrom, textOf_append, textOf_append, textOf_map newly, markers, List.append_nil,
      textUntilClosed, List.filter_cons]
    have rest := @ih span.active later laterBare
    by_cases listed : i ∈ span.active
    · rw [if_pos listed] at rest
      simp only [listed, decide_true, if_true, List.flatMap_cons, ← rest]
      by_cases opens : i ∈ newlyOpened opened span.active
      · simp [opens]
      · simp [opens, mem_opened_of_not_newly listed opens]
    · have closed : i ∉ newlyOpened opened span.active :=
        fun opens => listed ((newlyOpened_sublist opened span.active).subset opens)
      rw [if_neg listed, List.nil_append] at rest
      simp [listed, closed, rest]

variable {run : Run}

section Composed

variable (composed : compose source runs nesting = .ok c) (found : c.runs[i]? = some run)
  (nonempty : run.isEmpty = false)

include composed found nonempty

theorem not_marked_of_compose : (∀ span ∈ c.spans, i ∉ span.markers) ∧ i ∉ c.trailing := by
  have parts := compose_isPartition composed
  rw [← Array.getElem?_toList] at found
  constructor
  · intro span mem
    rw [parts.markers span mem]
    exact not_marked_of_nonempty found nonempty span.start
  · rw [parts.trailing]
    exact not_marked_of_nonempty found nonempty source.byteSize

/-- The spans that list a run are those over it, so together they show its text. -/
theorem flatMap_slice_active :
    ((c.spans.filter (i ∈ ·.active)).flatMap fun span => source.slice span.start span.stop) =
      source.slice run.start run.stop := by
  have fits := fits_of_compose composed
  have parts := compose_isPartition composed
  have covering : c.spans.filter (fun span => i ∈ span.active) =
      c.spans.filter fun span => run.start ≤ span.start && span.stop ≤ run.stop := by
    apply List.filter_congr
    intro span mem
    rw [Bool.eq_iff_iff, decide_eq_true_eq, parts.active span mem]
    simp [found, nonempty]
  rw [covering]
  obtain ⟨checked, rfl⟩ := compose_eq_ok_iff.mp composed
  have mem : run ∈ distinct runs := Array.mem_toList_iff.mpr (Array.mem_of_getElem? found)
  obtain ⟨ordered, bounded, start, _⟩ :=
    Run.check_eq_ok_iff.mp (checked run (mem_of_mem_distinct mem))
  refine parts.tiles.flatMap_slice_filter (fun span inSpans => (fits.spans span inSpans).2.1) start
    (Nat.zero_le _) ordered bounded ?_
  intro n isEnd span inSpans
  exact le_or_le_of_mem_table inSpans mem isEnd

/-- All elements of a run together hold its text, each part of it once. -/
theorem textOf_holdings : textOf i (c.holdings source) = source.slice run.start run.stop := by
  have fits := fits_of_compose composed
  have parts := compose_isPartition composed
  obtain ⟨unmarked, untrailed⟩ := not_marked_of_compose composed found nonempty
  have nodup : ∀ first ∈ c.spanTexts source, first.1.active.Nodup := by
    rw [fits.spanTexts_eq, List.forall_mem_map]
    exact fun span mem => (parts.nested span mem).1
  have textUnmarked : ∀ first ∈ c.spanTexts source, i ∉ first.1.markers := by
    rw [fits.spanTexts_eq, List.forall_mem_map]
    exact unmarked
  have held := @textOf_holdingsFrom i [] (c.spanTexts source) nodup textUnmarked
  have trailing : textOf i (c.trailing.map (·, [])) = [] := by
    simp [textOf, List.flatMap_eq_nil_iff]
  rw [if_neg List.not_mem_nil, List.nil_append, fits.spanTexts_eq, List.filter_map,
    List.flatMap_map] at held
  rw [holdings, textOf_append, trailing, List.append_nil, fits.spanTexts_eq, held]
  exact flatMap_slice_active composed found nonempty

end Composed

/-- What is held once is all that is held. -/
theorem mem_holdings_of_count {holdings : List (Nat × Text)}
    (once : (holdings.map Prod.fst).count i = 1) : (i, textOf i holdings) ∈ holdings := by
  have length : (holdings.filter (·.1 = i)).length = 1 := by
    rw [← once, List.count, List.countP_map, List.countP_eq_length_filter]
    rfl
  obtain ⟨holding, single⟩ := List.length_eq_one_iff.mp length
  have mem : holding ∈ holdings.filter (·.1 = i) := by rw [single]; exact List.mem_singleton_self _
  obtain ⟨listed, own⟩ := List.mem_filter.mp mem
  have own : holding.1 = i := by simpa using own
  have text : textOf i holdings = holding.2 := by rw [textOf, single]; simp
  rw [text, ← own]
  exact listed

/-- A run's element opens once exactly when every run that nests outside it and shares text with it
lies over all of it, and then that element holds the run's text and nothing else. -/
theorem opens_once_iff (composed : compose source runs nesting = .ok c)
    (found : c.runs[i]? = some run) (nonempty : run.isEmpty = false) (page : Path) :
    contents (c.markup source page) = (c.holdings source).map (fun (j, text) =>
        ((c.element page j).openingTag, escape text)) ∧
      (((c.holdings source).map Prod.fst).count i = 1 ↔
        Unsplit nesting c.runs.toList i run) ∧
      (((c.holdings source).map Prod.fst).count i = 1 →
        (i, source.slice run.start run.stop) ∈ c.holdings source ∧
        ((run.element page).openingTag, escape (source.slice run.start run.stop)) ∈
          contents (c.markup source page)) := by
  have fits := fits_of_compose composed
  have nodup : ∀ span ∈ c.spans, span.active.Nodup :=
    fun span mem => ((compose_isPartition composed).nested span mem).1
  have shown := contents_markup nodup fits page
  refine ⟨shown, ?_, ?_⟩
  · rw [map_fst_holdings fits, count_openings_eq_one_iff composed found]
    simp [nonempty]
  · intro once
    have held := mem_holdings_of_count once
    rw [textOf_holdings composed found nonempty] at held
    have element : c.element page i = run.element page := by simp [Composition.element, found]
    refine ⟨held, ?_⟩
    rw [shown, ← element]
    exact List.mem_map_of_mem (f := fun holding : Nat × Text =>
      ((c.element page holding.1).openingTag, escape holding.2)) held

/-- Two highlights that cross. The first is whole and the second is split. -/
def crossingHighlights : List Run :=
  [⟨0, 2, .style "k".toList, none⟩, ⟨1, 3, .style "s".toList, none⟩]

theorem opens_once_crossingHighlights :
    ∃ c, compose "a<c".toList crossingHighlights .linksInnermost = .ok c ∧
      ("<span class=\"k\">".toList, "a&lt;".toList) ∈
        contents (c.markup "a<c".toList ⟨"/out/a.html".toList⟩) ∧
      ((c.holdings "a<c".toList).map Prod.fst).count 1 ≠ 1 := by
  have composed : compose "a<c".toList crossingHighlights .linksInnermost =
      .ok { runs := crossingHighlights.toArray
            spans := [⟨0, 1, [0], []⟩, ⟨1, 2, [0, 1], []⟩, ⟨2, 3, [1], []⟩]
            trailing := [] } := by
    cbv
  have first : Precedes .linksInnermost crossingHighlights 0 1 :=
    ⟨_, _, rfl, rfl, .inr ⟨rfl, .inl Nat.zero_lt_one⟩⟩
  have unsplit : Unsplit .linksInnermost crossingHighlights 0 ⟨0, 2, .style "k".toList, none⟩ := by
    intro j other found _ outside _ _
    rcases j with _ | _ | j
    · exact absurd outside Precedes.irrefl
    · exact absurd first outside.asymm
    · cases found
  obtain ⟨_, whole, held⟩ := opens_once_iff composed (i := 0) rfl rfl ⟨"/out/a.html".toList⟩
  obtain ⟨_, split, _⟩ := opens_once_iff composed (i := 1) rfl rfl ⟨"/out/a.html".toList⟩
  refine ⟨_, composed, (held (whole.mpr unsplit)).2, ?_⟩
  intro once
  have covered := split.mp once 0 _ rfl rfl first (by decide) (by decide)
  exact absurd covered (by decide)

end Hyperlisting.Composition
