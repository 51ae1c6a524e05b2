import Hyperlisting.Proofs.Composition.Fidelity
import Hyperlisting.Proofs.Composition.Openings
import Hyperlisting.Proofs.Markup.Attributes

/-! Anchors as ids of a page. An anchor's id stands in the markup once for each time that the
anchor's element opens, so an anchor that another run splits is named more than once. -/

namespace Hyperlisting

open Markup

variable {source : Text} {runs : List Run} {nesting : Nesting} {c : Composition} {page : Path}

def Run.id? (run : Run) : Option Text :=
  match run.treatment with
  | .anchor id => some id
  | _ => none

theorem Run.element_ids (page : Path) (run : Run) : (run.element page).ids = run.id?.toList := by
  obtain ⟨start, stop, treatment, tooltip⟩ := run
  unfold Run.element Run.id? Element.ids idValues
  cases treatment <;> cases tooltip <;> simp

namespace Composition

variable {element : Nat → Element}

theorem openedElements_reopening (opened wanted : List Nat) :
    openedElements (opened.map (Piece.closing <| element ·) ++
      wanted.map (Piece.opening <| element ·)) = wanted.map element := by
  simp [openedElements, List.filterMap_map, Function.comp_def, Piece.opening?]

theorem openedElements_transition (opened wanted : List Nat) :
    openedElements (transition element opened wanted) =
      (newlyOpened opened wanted).map element := by
  fun_induction transition element opened wanted with
  | case1 opened a wanted ih => rw [ih, newlyOpened, if_pos rfl]
  | case2 a opened b wanted different =>
    rw [newlyOpened, if_neg different]
    exact openedElements_reopening _ _
  | case3 opened wanted shape =>
    rw [newlyOpened_eq_wanted shape]
    exact openedElements_reopening _ _

theorem openedElements_empties (places : List Nat) :
    openedElements (places.flatMap (Piece.empty <| element ·)) = places.map element := by
  induction places with
  | nil => rfl
  | cons i places ih =>
    rw [List.flatMap_cons, openedElements_append, ih]
    rfl

theorem openedElements_text (text : Text) :
    openedElements (text.map Piece.character) = [] := by
  simp [openedElements, List.filterMap_map, Function.comp_def, Piece.opening?]

theorem openedElements_spanPieces (opened : List Nat) (spans : List (Span × Text)) :
    openedElements (spanPieces element opened spans) =
      (openedFrom opened (spans.map Prod.fst)).map element := by
  induction spans generalizing opened with
  | nil =>
    rw [spanPieces, openedElements_transition]
    cases opened <;> rfl
  | cons first spans ih =>
    obtain ⟨span, text⟩ := first
    simp only [spanPieces, openedElements_append, openedElements_transition,
      openedElements_empties, openedElements_text, ih, List.map_cons, openedFrom, List.map_append,
      List.append_nil]

theorem openedElements_pieces (fits : c.Fits source) (page : Path) :
    openedElements (c.pieces source page) = c.openings.map (c.element page) := by
  rw [pieces, openedElements_append, openedElements_spanPieces, openedElements_empties,
    fits.map_fst_spanTexts, openings, List.map_append]

theorem ids_markup (fits : c.Fits source) (page : Path) :
    ids (c.markup source page) = c.openings.flatMap fun i => (c.element page i).ids := by
  rw [markup, ids_print (c.pieces_plain source page), openedElements_pieces fits, List.flatMap_map]

theorem element_ids {i : Nat} {id : Text} :
    id ∈ (c.element page i).ids ↔ ∃ run, c.runs[i]? = some run ∧ run.id? = some id := by
  unfold Composition.element
  cases found : c.runs[i]? with
  | none => simp [Element.ids, idValues]
  | some run => simp [Run.element_ids]

/-- What only one place lists is listed as often as the place occurs. -/
theorem count_flatMap_of_unique {listed : Nat → List Text} {i : Nat} {id : Text}
    (own : listed i = [id]) (others : ∀ j, j ≠ i → id ∉ listed j) (places : List Nat) :
    (places.flatMap listed).count id = places.count i := by
  induction places with
  | nil => rfl
  | cons j places ih =>
    rw [List.flatMap_cons, List.count_append, ih]
    by_cases same : j = i
    · subst same
      rw [own, List.count_singleton_self, List.count_cons_self, Nat.add_comm]
    · rw [List.count_eq_zero.mpr (others j same), List.count_cons_of_ne same, Nat.zero_add]

/-- Places of anchors with one id are the same place where no two anchors share an id. -/
theorem eq_of_id?_eq {table : List Run} (unique : (table.filterMap Run.id?).Nodup) {i j : Nat}
    {run other : Run} {id : Text} (found : table[i]? = some run) (found' : table[j]? = some other)
    (named : run.id? = some id) (named' : other.id? = some id) : i = j := by
  have apart := List.pairwise_iff_getElem.mp (List.pairwise_filterMap.mp unique)
  obtain ⟨bound, atI⟩ := List.getElem?_eq_some_iff.mp found
  obtain ⟨bound', atJ⟩ := List.getElem?_eq_some_iff.mp found'
  rcases Nat.lt_trichotomy i j with less | same | more
  · exact absurd rfl (apart i j bound bound' less id (by rw [atI, named]) id (by rw [atJ, named']))
  · exact same
  · exact absurd rfl (apart j i bound' bound more id (by rw [atJ, named']) id (by rw [atI, named]))

/-- With distinct ids an anchor's id is on the page, and it is there once exactly when the anchor
is empty or no run outside it splits it. -/
theorem count_ids_markup (composed : compose source runs nesting = .ok c)
    (unique : (c.runs.toList.filterMap Run.id?).Nodup) {i : Nat} {run : Run} {id : Text}
    (found : c.runs[i]? = some run) (anchor : run.treatment = .anchor id) (page : Path) :
    1 ≤ (ids (c.markup source page)).count id ∧
      ((ids (c.markup source page)).count id = 1 ↔
        run.isEmpty = true ∨ Unsplit nesting c.runs.toList i run) := by
  have named : run.id? = some id := by simp [Run.id?, anchor]
  have own : (c.element page i).ids = [id] := by
    simp [Composition.element, found, Run.element_ids, named]
  have others : ∀ j, j ≠ i → id ∉ (c.element page j).ids := by
    intro j different mem
    obtain ⟨other, found', named'⟩ := element_ids.mp mem
    rw [← Array.getElem?_toList] at found found'
    exact different (eq_of_id?_eq unique found' found named' named)
  rw [ids_markup (fits_of_compose composed), count_flatMap_of_unique own others]
  exact ⟨one_le_count_openings composed found, count_openings_eq_one_iff composed found⟩

/-- An anchor that a highlight overlaps in part. Nested outside the highlight it is whole, nested
inside it is split. -/
def splitAnchor : List Run :=
  [⟨0, 2, .style "k".toList, none⟩, ⟨1, 3, .anchor "x".toList, none⟩]

theorem count_ids_splitAnchor_linksOutermost :
    ∃ c, compose "abc".toList splitAnchor .linksOutermost = .ok c ∧
      (ids (c.markup "abc".toList ⟨"/out/a.html".toList⟩)).count "x".toList = 1 := by
  have composed : compose "abc".toList splitAnchor .linksOutermost =
      .ok { runs := splitAnchor.toArray
            spans := [⟨0, 1, [0], []⟩, ⟨1, 2, [1, 0], []⟩, ⟨2, 3, [1], []⟩]
            trailing := [] } := by
    cbv
  have unsplit : Unsplit .linksOutermost splitAnchor 1 ⟨1, 3, .anchor "x".toList, none⟩ := by
    intro j other found nonempty outside before after
    rcases j with _ | _ | j
    · obtain ⟨highlight, anchor, atHighlight, atAnchor, order⟩ := outside
      obtain rfl := Option.some.inj atHighlight
      obtain rfl := Option.some.inj atAnchor
      simp [Nesting.rank, Run.category, Treatment.category] at order
    · exact absurd outside Precedes.irrefl
    · cases found
  have counted := count_ids_markup composed (by decide) (i := 1) rfl rfl ⟨"/out/a.html".toList⟩
  exact ⟨_, composed, counted.2.mpr (.inr unsplit)⟩

theorem compose_splitAnchor :
    compose "abc".toList splitAnchor .linksInnermost =
      .ok { runs := splitAnchor.toArray
            spans := [⟨0, 1, [0], []⟩, ⟨1, 2, [0, 1], []⟩, ⟨2, 3, [1], []⟩]
            trailing := [] } := by
  cbv

theorem count_ids_splitAnchor :
    ∃ c, compose "abc".toList splitAnchor .linksInnermost = .ok c ∧
      (c.runs.toList.filterMap Run.id?).Nodup ∧
      (ids (c.markup "abc".toList ⟨"/out/a.html".toList⟩)).count "x".toList = 2 := by
  refine ⟨_, compose_splitAnchor, by decide, ?_⟩
  rw [ids_markup (fits_of_compose compose_splitAnchor)]
  decide

end Composition

end Hyperlisting
