import Hyperlisting.Composition.Markup
import Hyperlisting.Proofs.Markup.Reading

/-! The pieces of a composition: what holds of every run's element holds of every tag, and the
characters are those of the spans. -/

namespace Hyperlisting

open Markup

variable {source : Text} {page : Path}

theorem Run.element_plain (page : Path) (run : Run) : (run.element page).Plain := by
  obtain ⟨start, stop, treatment, tooltip⟩ := run
  constructor
  case name_ne_nil => cases treatment <;> simp [Run.element]
  case name => cases treatment <;> simp [Run.element]
  case attributes => cases treatment <;> cases tooltip <;> simp [Run.element]

namespace Composition

variable {c : Composition} {element : Nat → Element} {holds : Element → Prop}

theorem element_plain (c : Composition) (page : Path) (i : Nat) : (c.element page i).Plain := by
  unfold Composition.element
  split
  · exact Run.element_plain page _
  · exact ⟨by simp, by simp, by simp⟩

theorem empties_all (each : ∀ i, holds (element i)) {places : List Nat} {piece : Piece}
    (mem : piece ∈ places.flatMap (Piece.empty <| element ·)) : piece.All holds := by
  obtain ⟨i, _, mem⟩ := List.mem_flatMap.mp mem
  simp only [Piece.empty, List.mem_cons, List.not_mem_nil, or_false] at mem
  rcases mem with rfl | rfl
  · exact each i
  · exact each i

theorem reopening_all (each : ∀ i, holds (element i)) {opened wanted : List Nat} {piece : Piece}
    (mem : piece ∈ opened.map (.closing <| element ·) ++ wanted.map (.opening <| element ·)) :
    piece.All holds := by
  rcases List.mem_append.mp mem with mem | mem
  · obtain ⟨i, _, rfl⟩ := List.mem_map.mp mem
    exact each i
  · obtain ⟨i, _, rfl⟩ := List.mem_map.mp mem
    exact each i

theorem transition_all (each : ∀ i, holds (element i)) (opened wanted : List Nat) :
    ∀ piece ∈ transition element opened wanted, piece.All holds := by
  fun_induction transition element opened wanted with
  | case1 opened a wanted ih => exact ih
  | case2 a opened b wanted different => exact fun piece => reopening_all each
  | case3 opened wanted => exact fun piece => reopening_all each

theorem spanPieces_all (each : ∀ i, holds (element i)) (opened : List Nat)
    (spans : List (Span × Text)) : ∀ piece ∈ spanPieces element opened spans, piece.All holds := by
  induction spans generalizing opened with
  | nil => exact transition_all each opened []
  | cons first spans ih =>
    obtain ⟨span, text⟩ := first
    intro piece mem
    simp only [spanPieces, List.mem_append] at mem
    rcases mem with ((mem | mem) | mem) | mem
    · exact transition_all each opened span.active piece mem
    · exact empties_all each mem
    · obtain ⟨character, _, rfl⟩ := List.mem_map.mp mem
      trivial
    · exact ih span.active piece mem

/-- What holds of the elements of all places holds of the tags of the composition. -/
theorem pieces_all (each : ∀ i, holds (c.element page i)) :
    ∀ piece ∈ c.pieces source page, piece.All holds := by
  intro piece mem
  rcases List.mem_append.mp mem with mem | mem
  · exact spanPieces_all each _ _ piece mem
  · exact empties_all each mem

theorem pieces_plain (c : Composition) (source : Text) (page : Path) :
    ∀ piece ∈ c.pieces source page, piece.Plain :=
  pieces_all (c.element_plain page)

theorem characters_reopening (opened wanted : List Nat) :
    characters (opened.map (Piece.closing <| element ·) ++
      wanted.map (Piece.opening <| element ·)) = [] := by
  simp [characters, List.filterMap_map, Function.comp_def, Piece.character?]

theorem characters_transition (opened wanted : List Nat) :
    characters (transition element opened wanted) = [] := by
  fun_induction transition element opened wanted with
  | case1 opened a wanted ih => exact ih
  | case2 a opened b wanted different => exact characters_reopening _ _
  | case3 opened wanted => exact characters_reopening _ _

theorem characters_empties (places : List Nat) :
    characters (places.flatMap (Piece.empty <| element ·)) = [] := by
  induction places with
  | nil => rfl
  | cons i places ih => simpa [Piece.empty, characters, Piece.character?] using ih

theorem characters_spanPieces (opened : List Nat) (spans : List (Span × Text)) :
    characters (spanPieces element opened spans) = spans.flatMap Prod.snd := by
  induction spans generalizing opened with
  | nil => exact characters_transition opened []
  | cons first spans ih =>
    obtain ⟨span, text⟩ := first
    simp only [spanPieces, characters_append, characters_transition, characters_empties, ih,
      characters_map_character, List.nil_append, List.flatMap_cons]

theorem characters_pieces (c : Composition) (source : Text) (page : Path) :
    characters (c.pieces source page) = (c.spanTexts source).flatMap Prod.snd := by
  rw [pieces, characters_append, characters_spanPieces, characters_empties, List.append_nil]

/-- The indices of a composition are places of its table, and its spans are slices of the text. -/
structure Fits (source : Text) (c : Composition) : Prop where
  active : ∀ span ∈ c.spans, ∀ i ∈ span.active, i < c.runs.size
  markers : ∀ span ∈ c.spans, ∀ i ∈ span.markers, i < c.runs.size
  trailing : ∀ i ∈ c.trailing, i < c.runs.size
  spans : ∀ span ∈ c.spans, span.start ≤ span.stop ∧
    source.isBoundary span.start = true ∧ source.isBoundary span.stop = true

theorem Fits.spanTexts_eq (fits : c.Fits source) :
    c.spanTexts source = c.spans.map fun span => (span, source.slice span.start span.stop) := by
  apply spanTexts_eq_map
  intro span mem
  obtain ⟨ordered, boundary, _⟩ := fits.spans span mem
  exact ⟨ordered, boundary⟩

theorem Fits.map_fst_spanTexts (fits : c.Fits source) :
    (c.spanTexts source).map Prod.fst = c.spans := by
  rw [fits.spanTexts_eq, List.map_map]
  exact List.map_id _

end Composition

end Hyperlisting
