import Hyperlisting.Proofs.Composition.Pieces
import Hyperlisting.Proofs.Markup.Surroundings

/-! Which runs stand inside which on a page: an element is opened inside the elements of the runs
that its span lists before it, and inside no other. -/

namespace Hyperlisting.Composition

open Markup

variable {c : Composition} {source : Text} {page : Path} {element : Nat → Element}

/-- The element of a place in a list of places, with those of the places before it around it. -/
theorem mem_nestedInside {outer : List Element} {places : List Nat}
    {placed : Element × List Element} (mem : placed ∈ nestedInside outer (places.map element)) :
    ∃ before i after, places = before ++ i :: after ∧
      placed = (element i, before.reverse.map element ++ outer) := by
  induction places generalizing outer with
  | nil => cases mem
  | cons j places ih =>
    rcases List.mem_cons.mp mem with rfl | mem
    · exact ⟨[], j, places, rfl, rfl⟩
    · obtain ⟨before, i, after, rfl, rfl⟩ := ih mem
      exact ⟨j :: before, i, after, rfl, by simp⟩

theorem elementsInside_reopening (opened wanted : List Nat) (outer : List Element)
    (rest : List Piece) :
    elementsInside (opened.reverse.map element ++ outer)
        (opened.reverse.map (Piece.closing <| element ·) ++
          wanted.map (Piece.opening <| element ·) ++ rest) =
      nestedInside outer (wanted.map element) ++
        elementsInside (wanted.reverse.map element ++ outer) rest := by
  have closed := elementsInside_closings outer
    ((wanted.map element).map Piece.opening ++ rest) (opened.reverse.map element)
  have reopened := elementsInside_openings outer rest (wanted.map element)
  simpa [Function.comp_def] using closed.trans reopened

/-- Between two spans elements of the next one open, each inside those listed before it. -/
theorem elementsInside_transition (element : Nat → Element) (opened wanted : List Nat)
    (outer : List Element) (rest : List Piece) :
    ∃ shown, shown ⊆ nestedInside outer (wanted.map element) ∧
      elementsInside (opened.reverse.map element ++ outer)
          (transition element opened wanted ++ rest) =
        shown ++ elementsInside (wanted.reverse.map element ++ outer) rest := by
  fun_induction transition element opened wanted generalizing outer with
  | case1 opened a wanted ih =>
    obtain ⟨shown, among, equal⟩ := ih (element a :: outer)
    refine ⟨shown, fun placed mem => List.mem_cons_of_mem _ (among mem), ?_⟩
    simpa using equal
  | case2 a opened b wanted different =>
    exact ⟨_, List.Subset.refl _, elementsInside_reopening (a :: opened) (b :: wanted) outer rest⟩
  | case3 opened wanted =>
    exact ⟨_, List.Subset.refl _, elementsInside_reopening opened wanted outer rest⟩

/-- The element stands where its span lists it: as an active run inside those before it, or as a
marker inside all active runs. -/
def PlacedIn (element : Nat → Element) (placed : Element × List Element) (span : Span) : Prop :=
  (∃ before i after, span.active = before ++ i :: after ∧
      placed = (element i, before.reverse.map element)) ∨
    ∃ i ∈ span.markers, placed = (element i, span.active.reverse.map element)

theorem exists_of_mem_elementsInside_spanPieces {opened : List Nat} {spans : List (Span × Text)}
    {rest : List Piece} {placed : Element × List Element}
    (mem : placed ∈ elementsInside (opened.reverse.map element)
      (spanPieces element opened spans ++ rest)) :
    (∃ first ∈ spans, PlacedIn element placed first.1) ∨ placed ∈ elementsInside [] rest := by
  induction spans generalizing opened with
  | nil =>
    obtain ⟨shown, among, equal⟩ := elementsInside_transition element opened [] [] rest
    rw [List.append_nil] at equal
    obtain rfl : shown = [] := List.subset_nil.mp among
    rw [spanPieces, equal] at mem
    exact .inr mem
  | cons first spans ih =>
    obtain ⟨span, text⟩ := first
    rw [spanPieces, List.append_assoc, List.append_assoc, List.append_assoc] at mem
    obtain ⟨shown, among, equal⟩ := elementsInside_transition element opened span.active []
      (span.markers.flatMap (Piece.empty <| element ·) ++
        (text.map .character ++ (spanPieces element span.active spans ++ rest)))
    have markers := elementsInside_empties (span.active.reverse.map element)
      (text.map .character ++ (spanPieces element span.active spans ++ rest))
      (span.markers.map element)
    rw [List.flatMap_map, elementsInside_text] at markers
    rw [List.append_nil, List.append_nil, markers] at equal
    rw [equal] at mem
    have here : PlacedIn element placed span →
        ∃ first ∈ (span, text) :: spans, PlacedIn element placed first.1 :=
      fun placedIn => ⟨(span, text), List.mem_cons_self, placedIn⟩
    rcases List.mem_append.mp mem with mem | mem
    · obtain ⟨before, i, after, split, placedEq⟩ := mem_nestedInside (among mem)
      rw [List.append_nil] at placedEq
      exact .inl (here (.inl ⟨before, i, after, split, placedEq⟩))
    rcases List.mem_append.mp mem with mem | mem
    · rw [List.map_map] at mem
      obtain ⟨i, isMarker, placedEq⟩ := List.mem_map.mp mem
      exact .inl (here (.inr ⟨i, isMarker, placedEq.symm⟩))
    · rcases ih mem with ⟨later, inSpans, placedIn⟩ | behind
      · exact .inl ⟨later, List.mem_cons_of_mem _ inSpans, placedIn⟩
      · exact .inr behind

/-- An element of a composition stands where some span lists it, or behind the text and inside no
other. -/
theorem exists_of_mem_elementsInside (fits : c.Fits source) {placed : Element × List Element}
    (mem : placed ∈ elementsInside [] (c.pieces source page)) :
    (∃ span ∈ c.spans, PlacedIn (c.element page) placed span) ∨
      ∃ i ∈ c.trailing, placed = (c.element page i, []) := by
  have trailing := elementsInside_empties [] [] (c.trailing.map (c.element page))
  rw [List.flatMap_map, List.append_nil, List.map_map] at trailing
  have fromNone : placed ∈ elementsInside (([] : List Nat).reverse.map (c.element page))
    (c.pieces source page) := mem
  rcases exists_of_mem_elementsInside_spanPieces fromNone with ⟨first, listed, placedIn⟩ | behind
  · rw [fits.spanTexts_eq] at listed
    obtain ⟨span, inSpans, rfl⟩ := List.mem_map.mp listed
    exact .inl ⟨span, inSpans, placedIn⟩
  · rw [trailing] at behind
    rcases List.mem_append.mp behind with behind | none
    · obtain ⟨i, isTrailing, placedEq⟩ := List.mem_map.mp behind
      exact .inr ⟨i, isTrailing, placedEq.symm⟩
    · cases none

end Hyperlisting.Composition
