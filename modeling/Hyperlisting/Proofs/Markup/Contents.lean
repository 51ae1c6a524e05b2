import Hyperlisting.Proofs.Markup.Reading

/-! What elements hold. Every opening tag is taken with the characters up to the tag that closes it;
printed pieces give the elements that they open, each with the text that stands inside it. -/

namespace Hyperlisting.Markup

/-- The characters up to the tag that closes an open element, with a number of others open inside
it. -/
def heldFrom : (inner : Nat) → List Mark → Text
  | _, [] => []
  | inner, .character c :: marks => c :: heldFrom inner marks
  | inner, .tag text :: marks =>
    if isClosing text then
      match inner with
      | 0 => []
      | inner + 1 => heldFrom inner marks
    else heldFrom (inner + 1) marks

/-- The opening tags among some marks, each with the characters up to the tag that closes it. -/
def tagsHolding : List Mark → List (Text × Text)
  | [] => []
  | .character _ :: marks => tagsHolding marks
  | .tag text :: marks =>
    if isClosing text then tagsHolding marks
    else (text, heldFrom 0 marks) :: tagsHolding marks

/-- The opening tags of a document in order, each with what its element holds between the tags. -/
def contents (document : Text) : List (Text × Text) :=
  tagsHolding ((marks document).getD [])

/-- The text of some pieces up to the piece that closes an open element, with a number of others open
inside it. -/
def textWithin : (inner : Nat) → List Piece → Text
  | _, [] => []
  | inner, .character c :: pieces => c :: textWithin inner pieces
  | inner, .opening _ :: pieces => textWithin (inner + 1) pieces
  | 0, .closing _ :: _ => []
  | inner + 1, .closing _ :: pieces => textWithin inner pieces

/-- The elements that some pieces open, each with the text inside it. -/
def elementsHolding : List Piece → List (Element × Text)
  | [] => []
  | .opening element :: pieces => (element, textWithin 0 pieces) :: elementsHolding pieces
  | .closing _ :: pieces | .character _ :: pieces => elementsHolding pieces

theorem heldFrom_characters (inner : Nat) (shown : Text) (marks : List Mark) :
    heldFrom inner (shown.map .character ++ marks) = shown ++ heldFrom inner marks := by
  induction shown with
  | nil => rfl
  | cons c shown ih => exact congrArg (c :: ·) ih

theorem tagsHolding_characters (shown : Text) (marks : List Mark) :
    tagsHolding (shown.map .character ++ marks) = tagsHolding marks := by
  induction shown with
  | nil => rfl
  | cons c shown ih => exact ih

theorem heldFrom_marks {pieces : List Piece} (plain : ∀ piece ∈ pieces, piece.Plain)
    (inner : Nat) :
    heldFrom inner (pieces.flatMap Piece.marks) = escape (textWithin inner pieces) := by
  induction pieces generalizing inner with
  | nil => rfl
  | cons piece pieces ih =>
    obtain ⟨here, later⟩ := List.forall_mem_cons.mp plain
    cases piece with
    | opening element =>
      have opens : isClosing element.openingTag = false := here.isClosing_openingTag
      simpa [Piece.marks, heldFrom, textWithin, opens] using ih later (inner + 1)
    | closing element =>
      have closes := Element.Plain.isClosing_closingTag element
      cases inner with
      | zero => simp [Piece.marks, heldFrom, textWithin, closes]
      | succ inner => simpa [Piece.marks, heldFrom, textWithin, closes] using ih later inner
    | character c =>
      rw [List.flatMap_cons, Piece.marks, heldFrom_characters, textWithin, escape_cons,
        ih later inner]

theorem tagsHolding_marks {pieces : List Piece} (plain : ∀ piece ∈ pieces, piece.Plain) :
    tagsHolding (pieces.flatMap Piece.marks) =
      (elementsHolding pieces).map fun (element, text) => (element.openingTag, escape text) := by
  induction pieces with
  | nil => rfl
  | cons piece pieces ih =>
    obtain ⟨here, later⟩ := List.forall_mem_cons.mp plain
    cases piece with
    | opening element =>
      have opens : isClosing element.openingTag = false := here.isClosing_openingTag
      have held := heldFrom_marks later 0
      simp [Piece.marks, tagsHolding, elementsHolding, opens, held, ih later]
    | closing element =>
      have closes := Element.Plain.isClosing_closingTag element
      simpa [Piece.marks, tagsHolding, elementsHolding, closes] using ih later
    | character c =>
      rw [List.flatMap_cons, Piece.marks, tagsHolding_characters]
      exact ih later

/-- Printed pieces read back as the elements that they open, with the escaped text of each. -/
theorem contents_print {pieces : List Piece} (plain : ∀ piece ∈ pieces, piece.Plain) :
    contents (print pieces) =
      (elementsHolding pieces).map fun (element, text) => (element.openingTag, escape text) := by
  rw [contents, marks_print plain, Option.getD_some]
  exact tagsHolding_marks plain

variable (inner : Nat) (rest : List Piece)

theorem textWithin_openings (elements : List Element) :
    textWithin inner (elements.map .opening ++ rest) =
      textWithin (elements.length + inner) rest := by
  induction elements generalizing inner with
  | nil => rw [List.length_nil, Nat.zero_add]; rfl
  | cons element elements ih =>
    rw [List.length_cons, Nat.add_right_comm, Nat.add_assoc]
    exact ih (inner + 1)

theorem textWithin_closings (elements : List Element) :
    textWithin (elements.length + inner) (elements.map .closing ++ rest) =
      textWithin inner rest := by
  induction elements with
  | nil => rw [List.length_nil, Nat.zero_add]; rfl
  | cons element elements ih =>
    rw [List.length_cons, Nat.add_right_comm]
    exact ih

theorem textWithin_closings_of_lt {inner : Nat} {elements : List Element}
    (within : inner < elements.length) :
    textWithin inner (elements.map .closing ++ rest) = [] := by
  induction elements generalizing inner with
  | nil => exact absurd within (Nat.not_lt_zero _)
  | cons element elements ih =>
    cases inner with
    | zero => rfl
    | succ inner => exact ih (Nat.lt_of_succ_lt_succ within)

theorem textWithin_text (text : Text) :
    textWithin inner (text.map .character ++ rest) = text ++ textWithin inner rest := by
  induction text with
  | nil => rfl
  | cons c text ih => exact congrArg (c :: ·) ih

theorem textWithin_empties (elements : List Element) :
    textWithin inner (elements.flatMap Piece.empty ++ rest) = textWithin inner rest := by
  induction elements with
  | nil => rfl
  | cons element elements ih => exact ih

theorem elementsHolding_closings (elements : List Element) :
    elementsHolding (elements.map .closing ++ rest) = elementsHolding rest := by
  induction elements with
  | nil => rfl
  | cons element elements ih => exact ih

theorem elementsHolding_text (text : Text) :
    elementsHolding (text.map .character ++ rest) = elementsHolding rest := by
  induction text with
  | nil => rfl
  | cons c text ih => exact ih

theorem elementsHolding_empties (elements : List Element) :
    elementsHolding (elements.flatMap Piece.empty ++ rest) =
      elements.map (·, []) ++ elementsHolding rest := by
  induction elements with
  | nil => rfl
  | cons element elements ih => exact congrArg ((element, []) :: ·) ih

end Hyperlisting.Markup
