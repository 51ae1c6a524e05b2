import Hyperlisting.Proofs.Composition.Fidelity
import Hyperlisting.Proofs.Markup.Lines

/-! The lines of a body are those of the source, however it is annotated: each has the number that
it has there and shows the text that it has there. -/

namespace Hyperlisting

open Markup

variable {source : Text} {runs : List Run} {nesting : Nesting} {c : Composition}

theorem map_plainText_splitOn {pieces : List Piece} (alike : Bool)
    (plain : ∀ piece ∈ pieces, piece.Plain)
    (unlabelled : ∀ piece ∈ pieces, piece.All Element.Unlabelled) :
    ((print pieces).splitOn '\n').map (plainText alike) = (characters pieces).splitOn '\n' := by
  rw [splitOn_print plain, splitOn_characters, List.map_map]
  apply List.map_congr_left
  intro line mem
  exact plainText_print alike
    (fun piece inLine => plain piece (Lists.mem_of_mem_splitOnP mem piece inLine).1)
    (fun piece inLine => unlabelled piece (Lists.mem_of_mem_splitOnP mem piece inLine).1)

namespace Composition

/-- The lines of a body are the lines of the markup with the first `source.lineCount` labelled in
front, and nothing else in the body reads as a label. There are as many line ends as in the source,
and each line shows the line of the source. -/
theorem splitOn_body (alike : Bool) (composed : compose source runs nesting = .ok c)
    (page : Path) :
    (c.body source page).splitOn '\n' =
        ((c.markup source page).splitOn '\n').mapIdx (fun k line =>
          if k < source.lineCount then lineLabel (k + 1) ++ line else line) ∧
      labels alike (c.body source page) = (List.range' 1 source.lineCount).map lineLabel ∧
      (c.body source page).count '\n' = source.count '\n' ∧
      ((c.body source page).splitOn '\n').map (plainText alike) = source.splitOn '\n' := by
  have plain := c.pieces_plain source page
  have unlabelled : ∀ piece ∈ c.pieces source page, piece.All Element.Unlabelled :=
    pieces_all (c.element_unlabelled page)
  have shown := characters_of_compose composed page
  have lines : (c.body source page).splitOn '\n' =
      ((c.markup source page).splitOn '\n').mapIdx fun k line =>
        if k < source.lineCount then lineLabel (k + 1) ++ line else line := by
    have numbered := splitOn_numberLines plain
    rwa [shown] at numbered
  have texts : ((c.body source page).splitOn '\n').map (plainText alike) =
      source.splitOn '\n' := by
    have bare := map_plainText_splitOn alike plain unlabelled
    rw [shown] at bare
    rw [lines, ← bare]
    apply List.ext_getElem
    · simp [markup]
    · intro k _ _
      simp only [List.getElem_map, List.getElem_mapIdx]
      split
      · exact plainText_lineLabel_append ..
      · rfl
  refine ⟨lines, ?_, ?_, texts⟩
  · have found := labels_numberLines alike plain unlabelled
    rwa [shown] at found
  · have lengths := congrArg List.length texts
    rw [List.length_map, Text.length_splitOn, Text.length_splitOn] at lengths
    exact Nat.succ_inj.mp lengths

/-- A highlight over both line ends, a marker at the start of a line and one at the end of the
text, whose title has a line end. -/
def multilineRuns : List Run :=
  [⟨0, 4, .style "k".toList, none⟩, ⟨2, 2, .anchor "m".toList, none⟩,
    ⟨4, 4, .anchor "line-9".toList, some "x\ny".toList⟩]

theorem splitOn_body_multilineRuns :
    ∃ c, compose "a\nb\n".toList multilineRuns .linksInnermost = .ok c ∧
      labels true (c.body "a\nb\n".toList ⟨"/out/a.html".toList⟩) = [lineLabel 1, lineLabel 2] ∧
      ((c.body "a\nb\n".toList ⟨"/out/a.html".toList⟩).splitOn '\n').map (plainText true) =
        ["a".toList, "b".toList, []] := by
  have composed : compose "a\nb\n".toList multilineRuns .linksInnermost =
      .ok { runs := multilineRuns.toArray
            spans := [⟨0, 2, [0], []⟩, ⟨2, 4, [0], [1]⟩]
            trailing := [2] } := by
    cbv
  obtain ⟨_, found, _, texts⟩ := splitOn_body true composed ⟨"/out/a.html".toList⟩
  exact ⟨_, composed, found, texts⟩

end Composition

end Hyperlisting
