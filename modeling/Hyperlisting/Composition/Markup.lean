import Hyperlisting.Composition
import Hyperlisting.Href
import Hyperlisting.Markup.LineNumbers

/-!
Compositions as markup. The open elements always equal the active runs of the span just written:
between two spans the elements that both start with stay open, the rest close innermost first, and
the rest of the next span's runs open outermost first. So tags never cross.
-/

namespace Hyperlisting

open Markup

def Run.element (page : Path) (run : Run) : Element :=
  let title := run.tooltip.toList.map fun tooltip => ⟨"title".toList, tooltip⟩
  match run.treatment with
  | .style className => ⟨"span".toList, ⟨"class".toList, className⟩ :: title⟩
  | .link destination =>
    ⟨"a".toList, ⟨"href".toList, Href.relative page destination⟩ :: title⟩
  | .anchor id => ⟨"span".toList, ⟨"id".toList, id⟩ :: title⟩

namespace Composition

def element (composition : Composition) (page : Path) (index : Nat) : Element :=
  match composition.runs[index]? with
  | some run => run.element page
  | none => ⟨"span".toList, []⟩

/-- Tags that lead from one list of open elements to another. -/
def transition (element : Nat → Element) : (opened wanted : List Nat) → List Piece
  | a :: opened, b :: wanted =>
    if a = b then transition element opened wanted
    else (a :: opened).reverse.map (.closing <| element ·) ++
      (b :: wanted).map (.opening <| element ·)
  | opened, wanted =>
    opened.reverse.map (.closing <| element ·) ++ wanted.map (.opening <| element ·)

/-- The pieces of some spans with their texts, from the elements open before them to none. -/
def spanPieces (element : Nat → Element) (opened : List Nat) : List (Span × Text) → List Piece
  | [] => transition element opened []
  | (span, text) :: spans =>
    transition element opened span.active ++
      span.markers.flatMap (Piece.empty <| element ·) ++
      text.map .character ++
      spanPieces element span.active spans

def spanTexts (composition : Composition) (source : Text) : List (Span × Text) :=
  composition.spans.zip <|
    source.slices <| composition.spans.map fun span => (span.start, span.stop)

def pieces (composition : Composition) (source : Text) (page : Path) : List Piece :=
  spanPieces (composition.element page) [] (composition.spanTexts source) ++
    composition.trailing.flatMap (Piece.empty <| composition.element page ·)

/-- The source with its runs applied, as it stands on a page. -/
def markup (composition : Composition) (source : Text) (page : Path) : Text :=
  print (composition.pieces source page)

/-- The markup with its lines numbered: the body of a page. -/
def body (composition : Composition) (source : Text) (page : Path) : Text :=
  numberLines (composition.markup source page)

/-- Spans that are in order and start at boundaries have the texts between their ends. -/
theorem spanTexts_eq_map {composition : Composition} {source : Text}
    (fit : ∀ span ∈ composition.spans,
      span.start ≤ span.stop ∧ source.isBoundary span.start = true) :
    composition.spanTexts source =
      composition.spans.map fun span => (span, source.slice span.start span.stop) := by
  rw [spanTexts, Text.slices_eq_map, List.map_map]
  · have zipped : (composition.spans.map id).zip
        (composition.spans.map fun span => source.slice span.start span.stop) = _ := List.zip_map'
    rwa [List.map_id] at zipped
  · simpa using fit

end Composition
end Hyperlisting
