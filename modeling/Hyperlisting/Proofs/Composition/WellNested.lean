import Mathlib.Data.List.Basic
import Hyperlisting.Proofs.Composition.Pieces
import Hyperlisting.Proofs.Markup.Numbering

/-! The markup of a composition is well nested, whatever its lists of active runs: it reads back as
the text of its spans, each character inside the elements of its span's active runs. The labels of
lines stand between tags. -/

namespace Hyperlisting

open Markup

variable {source : Text} {page : Path}

namespace Composition

variable {c : Composition} {element : Nat → Element}

def openingTags (element : Nat → Element) (places : List Nat) : List Text :=
  places.map fun i => (element i).openingTag

theorem plain_of_mem_map (plain : ∀ i, (element i).Plain) (places : List Nat) :
    ∀ e ∈ places.map element, e.Plain := by
  intro e mem
  obtain ⟨i, _, rfl⟩ := List.mem_map.mp mem
  exact plain i

theorem follow_reopening (plain : ∀ i, (element i).Plain) (opened wanted : List Nat)
    (outer : List Text) (rest : List Mark) :
    follow (openingTags element opened.reverse ++ outer)
        ((opened.reverse.map (Piece.closing <| element ·) ++
          wanted.map (Piece.opening <| element ·)).flatMap Piece.marks ++ rest) =
      follow (openingTags element wanted.reverse ++ outer) rest := by
  have closed := follow_closings (plain_of_mem_map plain opened.reverse) outer
    (((wanted.map element).map Piece.opening).flatMap Piece.marks ++ rest)
  have reopened := follow_openings (plain_of_mem_map plain wanted) outer rest
  simpa [openingTags, Function.comp_def] using closed.trans reopened

theorem follow_transition (plain : ∀ i, (element i).Plain) (opened wanted : List Nat)
    (outer : List Text) (rest : List Mark) :
    follow (openingTags element opened.reverse ++ outer)
        ((transition element opened wanted).flatMap Piece.marks ++ rest) =
      follow (openingTags element wanted.reverse ++ outer) rest := by
  -- elements that both lists start with stay below the part of the stack that changes
  fun_induction transition element opened wanted generalizing outer with
  | case1 opened a wanted ih =>
    simpa [openingTags] using ih ((element a).openingTag :: outer)
  | case2 a opened b wanted different =>
    exact follow_reopening plain (a :: opened) (b :: wanted) outer rest
  | case3 opened wanted => exact follow_reopening plain opened wanted outer rest

theorem follow_markers (plain : ∀ i, (element i).Plain) (places : List Nat) (opened : List Text)
    (rest : List Mark) :
    follow opened ((places.flatMap (Piece.empty <| element ·)).flatMap Piece.marks ++ rest) =
      follow opened rest := by
  have emptied := follow_empties (plain_of_mem_map plain places) opened rest
  simpa [List.flatMap_map] using emptied

/-- A text as a reader is shown it inside the given tags. -/
def shownInside (tags : List Text) (text : Text) : List (List Text × Char) :=
  (escape text).map (tags, ·)

theorem follow_text (opened : List Text) (text : Text) (rest : List Mark) :
    follow opened ((text.map Piece.character).flatMap Piece.marks ++ rest) =
      (follow opened rest).map (shownInside opened.reverse text ++ ·) := by
  have marks : (text.map Piece.character).flatMap Piece.marks =
      (escape text).map Mark.character := by
    simp only [List.flatMap_map, escape, List.map_flatMap]
    rfl
  rw [marks, follow_characters]
  rfl

/-- Spans are read with their active runs open, and leave nothing open. -/
theorem follow_spanPieces (plain : ∀ i, (element i).Plain) (opened : List Nat)
    (spans : List (Span × Text)) (rest : List Mark) :
    follow (openingTags element opened.reverse)
        ((spanPieces element opened spans).flatMap Piece.marks ++ rest) =
      (follow [] rest).map ((spans.flatMap fun (span, text) =>
        shownInside (openingTags element span.active) text) ++ ·) := by
  induction spans generalizing opened with
  | nil =>
    have closed := follow_transition plain opened [] [] rest
    simpa [spanPieces, openingTags] using closed
  | cons first spans ih =>
    obtain ⟨span, text⟩ := first
    have reached := follow_transition plain opened span.active []
    simp only [List.append_nil] at reached
    have innermostFirst : (openingTags element span.active.reverse).reverse =
        openingTags element span.active := by
      simp [openingTags]
    simp only [spanPieces, List.flatMap_append, List.append_assoc]
    rw [reached, follow_markers plain, follow_text, ih span.active, innermostFirst]
    simp [Function.comp_def]

def runTags (c : Composition) (page : Path) (places : List Nat) : List Text :=
  (places.filterMap (c.runs[·]?)).map fun run => (run.element page).openingTag

theorem openingTags_eq_runTags {places : List Nat} (known : ∀ i ∈ places, i < c.runs.size) :
    openingTags (c.element page) places = c.runTags page places := by
  induction places with
  | nil => rfl
  | cons i places ih =>
    obtain ⟨here, later⟩ := List.forall_mem_cons.mp known
    have found := Array.getElem?_eq_getElem here
    have same : c.element page i = c.runs[i].element page := by simp [Composition.element, found]
    have rest := ih later
    simp only [openingTags, runTags, List.map_cons, List.filterMap_cons, found, same] at rest ⊢
    rw [rest]

theorem follow_pieces (fits : c.Fits source) :
    follow [] ((c.pieces source page).flatMap Piece.marks) =
      some (c.spans.flatMap fun span =>
        shownInside (c.runTags page span.active) (source.slice span.start span.stop)) := by
  have plain := c.element_plain page
  have ending := follow_markers plain c.trailing [] []
  rw [List.append_nil] at ending
  have walked := follow_spanPieces plain [] (c.spanTexts source)
    ((c.trailing.flatMap (Piece.empty <| c.element page ·)).flatMap Piece.marks)
  have tags : (c.spans.flatMap fun span => shownInside (openingTags (c.element page) span.active)
        (source.slice span.start span.stop)) =
      c.spans.flatMap fun span =>
        shownInside (c.runTags page span.active) (source.slice span.start span.stop) := by
    apply List.flatMap_congr
    intro span mem
    rw [openingTags_eq_runTags (fits.active span mem)]
  rw [ending, fits.spanTexts_eq, List.flatMap_map, tags] at walked
  rw [pieces, List.flatMap_append, fits.spanTexts_eq]
  simpa [openingTags, follow] using walked

/-- The markup reads back as the text of the spans inside the tags of their active runs, its body
reads back too, and before each label of a line no tag is unfinished. -/
theorem markup_reading (fits : c.Fits source) :
    reading (c.markup source page) = some (c.spans.flatMap fun span =>
        shownInside (c.runTags page span.active) (source.slice span.start span.stop)) ∧
      (∃ shown, reading (c.body source page) = some shown) ∧
      ∀ before number after, c.body source page = before ++ lineLabel number ++ after →
        ∃ found, marks before = some found := by
  have plain := c.pieces_plain source page
  have numberedPlain : ∀ piece ∈ labelPieces 1 ++ numberPieces 1 (c.pieces source page),
      piece.Plain :=
    List.forall_mem_append.mpr ⟨fun piece => labelPieces_plain, numberPieces_plain plain⟩
  have body : c.body source page =
      print (labelPieces 1 ++ numberPieces 1 (c.pieces source page)) := numberLines_print plain
  have readsMarkup : reading (c.markup source page) = some (c.spans.flatMap fun span =>
      shownInside (c.runTags page span.active) (source.slice span.start span.stop)) := by
    rw [reading, Composition.markup, marks_print plain, Option.bind_some, follow_pieces fits]
  refine ⟨readsMarkup, ?_, ?_⟩
  · rw [body, reading, marks_print numberedPlain, Option.bind_some, List.flatMap_append]
    exact follow_labelPieces 1 [] (follow_numberPieces ⟨_, follow_pieces fits⟩)
  · intro before number after split
    have reads := marks_print numberedPlain
    rw [← body, split, List.append_assoc] at reads
    exact marksFrom_before reads

/-- A composition that no runs make: active runs repeat and change their order, and what they say
looks like markup. -/
def reorderedRuns : Composition where
  runs := #[⟨0, 2, .style "<k>".toList, none⟩, ⟨1, 3, .anchor "x\n\"".toList, some ">".toList⟩]
  spans := [⟨0, 1, [1, 0, 1], [0]⟩, ⟨1, 3, [0, 1, 1], []⟩]
  trailing := [1, 1]

theorem reorderedRuns_markup_reading :
    reorderedRuns.Fits "a<b".toList ∧
      reading (reorderedRuns.markup "a<b".toList ⟨"/out/a.html".toList⟩) =
        some (reorderedRuns.spans.flatMap fun span =>
          shownInside (reorderedRuns.runTags ⟨"/out/a.html".toList⟩ span.active)
            (Text.slice "a<b".toList span.start span.stop)) := by
  have fits : reorderedRuns.Fits "a<b".toList := by
    constructor <;> decide
  exact ⟨fits, (markup_reading fits).1⟩

end Composition

end Hyperlisting
