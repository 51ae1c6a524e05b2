import Hyperlisting.Proofs.Markup.Attributes
import Hyperlisting.Proofs.Markup.Lines

/-! Which elements stand inside which. Every opening tag is taken with the tags that are open
around it; printed pieces give the elements that they open, each inside those not closed yet. -/

namespace Hyperlisting.Markup

/-- The opening tags among some marks, each with the tags that are open around it, innermost
first. -/
def tagsInside : (opened : List Text) → List Mark → List (Text × List Text)
  | _, [] => []
  | opened, .character _ :: marks => tagsInside opened marks
  | opened, .tag text :: marks =>
    if isClosing text then tagsInside opened.tail marks
    else (text, opened) :: tagsInside (text :: opened) marks

/-- The opening tags of a document, each with the tags around it. -/
def surroundings (document : Text) : List (Text × List Text) :=
  tagsInside [] ((marks document).getD [])

/-- The elements that some pieces open, each with the elements around it, innermost first. -/
def elementsInside : (opened : List Element) → List Piece → List (Element × List Element)
  | _, [] => []
  | opened, .opening element :: pieces =>
    (element, opened) :: elementsInside (element :: opened) pieces
  | opened, .closing _ :: pieces => elementsInside opened.tail pieces
  | opened, .character _ :: pieces => elementsInside opened pieces

/-- Elements opened one inside the other. -/
def nestedInside : (outer : List Element) → List Element → List (Element × List Element)
  | _, [] => []
  | outer, element :: elements => (element, outer) :: nestedInside (element :: outer) elements

theorem tagsInside_characters (opened : List Text) (shown : Text) (rest : List Mark) :
    tagsInside opened (shown.map .character ++ rest) = tagsInside opened rest := by
  induction shown with
  | nil => rfl
  | cons c shown ih => exact ih

theorem tagsInside_marks {pieces : List Piece} (plain : ∀ piece ∈ pieces, piece.Plain)
    (opened : List Element) :
    tagsInside (opened.map Element.openingTag) (pieces.flatMap Piece.marks) =
      (elementsInside opened pieces).map fun placed =>
        (placed.1.openingTag, placed.2.map Element.openingTag) := by
  induction pieces generalizing opened with
  | nil => rfl
  | cons piece pieces ih =>
    obtain ⟨here, later⟩ := List.forall_mem_cons.mp plain
    cases piece with
    | opening element =>
      have opens : isClosing element.openingTag = false := here.isClosing_openingTag
      simpa [Piece.marks, tagsInside, elementsInside, opens] using ih later (element :: opened)
    | closing element =>
      simpa [Piece.marks, tagsInside, elementsInside, Element.Plain.isClosing_closingTag]
        using ih later opened.tail
    | character c =>
      rw [List.flatMap_cons, Piece.marks, tagsInside_characters]
      exact ih later opened

theorem surroundings_print {pieces : List Piece} (plain : ∀ piece ∈ pieces, piece.Plain) :
    surroundings (print pieces) =
      (elementsInside [] pieces).map fun placed =>
        (placed.1.openingTag, placed.2.map Element.openingTag) := by
  rw [surroundings, marks_print plain, Option.getD_some]
  exact tagsInside_marks plain []

theorem map_fst_elementsInside (opened : List Element) (pieces : List Piece) :
    (elementsInside opened pieces).map Prod.fst = openedElements pieces := by
  fun_induction elementsInside opened pieces with
  | case1 => rfl
  | case2 opened element pieces ih => exact congrArg (element :: ·) ih
  | case3 opened element pieces ih => exact ih
  | case4 opened c pieces ih => exact ih

theorem plain_of_mem_elementsInside {pieces : List Piece}
    (plain : ∀ piece ∈ pieces, piece.Plain) {opened : List Element}
    (openedPlain : ∀ element ∈ opened, element.Plain) {placed : Element × List Element}
    (mem : placed ∈ elementsInside opened pieces) :
    placed.1.Plain ∧ ∀ outer ∈ placed.2, outer.Plain := by
  induction pieces generalizing opened with
  | nil => cases mem
  | cons piece pieces ih =>
    obtain ⟨here, later⟩ := List.forall_mem_cons.mp plain
    cases piece with
    | opening element =>
      rcases List.mem_cons.mp mem with rfl | mem
      · exact ⟨here, openedPlain⟩
      · exact ih later (List.forall_mem_cons.mpr ⟨here, openedPlain⟩) mem
    | closing element =>
      exact ih later (fun outer isOuter => openedPlain outer (List.mem_of_mem_tail isOuter)) mem
    | character c => exact ih later openedPlain mem

variable (outer : List Element) (rest : List Piece)

theorem elementsInside_openings (elements : List Element) :
    elementsInside outer (elements.map .opening ++ rest) =
      nestedInside outer elements ++ elementsInside (elements.reverse ++ outer) rest := by
  induction elements generalizing outer with
  | nil => rfl
  | cons element elements ih =>
    simpa [elementsInside, nestedInside] using ih (element :: outer)

theorem elementsInside_closings (elements : List Element) :
    elementsInside (elements ++ outer) (elements.map .closing ++ rest) =
      elementsInside outer rest := by
  induction elements with
  | nil => rfl
  | cons element elements ih => exact ih

theorem elementsInside_text (text : Text) :
    elementsInside outer (text.map .character ++ rest) = elementsInside outer rest := by
  induction text with
  | nil => rfl
  | cons c text ih => exact ih

theorem elementsInside_empties (elements : List Element) :
    elementsInside outer (elements.flatMap Piece.empty ++ rest) =
      elements.map (·, outer) ++ elementsInside outer rest := by
  induction elements with
  | nil => rfl
  | cons element elements ih => exact congrArg ((element, outer) :: ·) ih

theorem elementsInside_labelPieces (number : Nat) :
    elementsInside outer (labelPieces number ++ rest) =
      (lineElement number, outer) :: elementsInside outer rest := by
  have shown := elementsInside_text (lineElement number :: outer)
    (.closing (lineElement number) :: .character ' ' :: rest) (Text.ofNat number)
  simpa [labelPieces, elementsInside] using shown

/-- Numbering lines opens nothing but the labels, and changes nothing around the other elements. -/
theorem mem_elementsInside_numberPieces {number : Nat} {opened : List Element}
    {pieces : List Piece} {placed : Element × List Element}
    (mem : placed ∈ elementsInside opened (numberPieces number pieces)) :
    placed ∈ elementsInside opened pieces ∨ ∃ number, placed.1 = lineElement number := by
  induction pieces generalizing number opened with
  | nil => exact .inl mem
  | cons piece pieces ih =>
    cases piece with
    | opening element =>
      rcases List.mem_cons.mp mem with rfl | mem
      · exact .inl List.mem_cons_self
      · exact (ih mem).imp_left (List.mem_cons_of_mem _)
    | closing element => exact ih mem
    | character c =>
      unfold numberPieces at mem
      split at mem
      · rw [elementsInside] at mem
        split at mem
        · exact ih mem
        · rw [elementsInside_labelPieces] at mem
          rcases List.mem_cons.mp mem with rfl | mem
          · exact .inr ⟨_, rfl⟩
          · exact ih mem
      · exact ih mem

theorem openedElements_labelPieces (number : Nat) :
    openedElements (labelPieces number) = [lineElement number] := by
  have placed := elementsInside_labelPieces [] [] number
  rw [List.append_nil] at placed
  rw [← map_fst_elementsInside [], placed]
  rfl

/-- Numbered lines open what the bare ones open, and a label for each line end that more text
follows. -/
theorem openedElements_numberPieces (number : Nat) (pieces : List Piece) :
    (openedElements (numberPieces number pieces)).Perm
      ((List.range' (number + 1) ((characters pieces).lineCount - 1)).map lineElement ++
        openedElements pieces) := by
  induction pieces generalizing number with
  | nil => exact .nil
  | cons piece pieces ih =>
    have apart (more : List Piece) :
        openedElements (piece :: more) = piece.opening?.toList ++ openedElements more := by
      cases piece <;> rfl
    cases ends : piece.endsLine with
    | false =>
      rw [numberPieces, ends, if_neg (by simp), apart, apart, lineCount_characters_cons ends]
      exact ((ih number).append_left _).trans (List.perm_append_comm_assoc ..)
    | true =>
      rw [endsLine_iff.mp ends] at apart ⊢
      have text : characters (.character '\n' :: pieces) = '\n' :: characters pieces := rfl
      rw [numberPieces, if_pos (endsLine_iff.mpr rfl), apart, apart, text]
      simp only [Piece.opening?, Option.toList_none, List.nil_append]
      by_cases ended : characters pieces = []
      · have rest := ih (number + 1)
        rw [ended] at rest
        rw [if_pos ended, List.nil_append, ended]
        exact rest
      · have positive := Text.one_le_lineCount (characters pieces)
        have counted : (characters pieces).lineCount + 1 - 1 =
            (characters pieces).lineCount - 1 + 1 := by omega
        rw [if_neg ended, openedElements_append, openedElements_labelPieces,
          Text.lineCount_newline_cons ended, counted, List.range'_succ]
        exact (ih (number + 1)).cons _

variable {pieces : List Piece}

theorem openedElements_numbered (pieces : List Piece) :
    (openedElements (labelPieces 1 ++ numberPieces 1 pieces)).Perm
      ((List.range' 1 (characters pieces).lineCount).map lineElement ++ openedElements pieces) := by
  have positive := Text.one_le_lineCount (characters pieces)
  have counted : (characters pieces).lineCount = (characters pieces).lineCount - 1 + 1 := by omega
  rw [openedElements_append, openedElements_labelPieces, counted, List.range'_succ]
  exact (openedElements_numberPieces 1 pieces).cons _

theorem numbered_plain (plain : ∀ piece ∈ pieces, piece.Plain) :
    ∀ piece ∈ labelPieces 1 ++ numberPieces 1 pieces, piece.Plain :=
  List.forall_mem_append.mpr ⟨fun _ => labelPieces_plain, numberPieces_plain plain⟩

/-- The opening tags of a numbered document are those of its labels and of its pieces. -/
theorem tags_numberLines (plain : ∀ piece ∈ pieces, piece.Plain) :
    ((surroundings (numberLines (print pieces))).map Prod.fst).Perm
      ((List.range' 1 (characters pieces).lineCount).map (lineElement · |>.openingTag) ++
        (openedElements pieces).map Element.openingTag) := by
  have opened := (openedElements_numbered pieces).map Element.openingTag
  rw [numberLines_print plain, surroundings_print (numbered_plain plain), List.map_map,
    Function.comp_def, ← Function.comp_def Element.openingTag Prod.fst, ← List.map_map,
    map_fst_elementsInside]
  simpa [Function.comp_def] using opened

/-- The labels apart, the tags of a numbered document stand inside each other as they did before. -/
theorem exists_of_mem_surroundings_numberLines (plain : ∀ piece ∈ pieces, piece.Plain)
    {placed : Text × List Text} (mem : placed ∈ surroundings (numberLines (print pieces))) :
    (∃ number, placed.1 = (lineElement number).openingTag) ∨
      ∃ inner ∈ elementsInside [] pieces,
        placed = (inner.1.openingTag, inner.2.map Element.openingTag) := by
  rw [numberLines_print plain, surroundings_print (numbered_plain plain)] at mem
  obtain ⟨inner, opened, rfl⟩ := List.mem_map.mp mem
  rw [elementsInside_labelPieces] at opened
  rcases List.mem_cons.mp opened with rfl | opened
  · exact .inl ⟨1, rfl⟩
  rcases mem_elementsInside_numberPieces opened with opened | ⟨number, label⟩
  · exact .inr ⟨inner, opened, rfl⟩
  · exact .inl ⟨number, by rw [label]⟩

theorem ids_lineElement (number : Nat) : (lineElement number).ids = [lineId number] := by
  simp [lineElement, Element.ids, idValues]

/-- The ids of a numbered document are those of its lines and of its pieces. -/
theorem ids_numberLines (plain : ∀ piece ∈ pieces, piece.Plain) :
    (ids (numberLines (print pieces))).Perm
      ((List.range' 1 (characters pieces).lineCount).map lineId ++
        (openedElements pieces).flatMap Element.ids) := by
  have listed := (openedElements_numbered pieces).flatMap_right Element.ids
  have labels : ((List.range' 1 (characters pieces).lineCount).map lineElement).flatMap
      Element.ids = (List.range' 1 (characters pieces).lineCount).map lineId := by
    rw [List.flatMap_map, List.map_eq_flatMap]
    simp only [ids_lineElement]
  rwa [numberLines_print plain, ids_print (numbered_plain plain), ← labels, ← List.flatMap_append]

end Hyperlisting.Markup
