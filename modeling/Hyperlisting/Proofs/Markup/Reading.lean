import Hyperlisting.Proofs.Markup.Escape

/-! Reading markup from left to right, as tags and characters, and following which tags are open.
Printed pieces read back as what they are. -/

namespace Hyperlisting.Markup

/-- One step of a reader. A tag is the whole text from its `<` to its `>`. -/
inductive Mark where
  | tag (text : Text)
  | character (c : Char)

/-- The tags and characters of a text; `begun` is the part of a tag that was read already. A tag
that is not finished, or that holds another `<`, does not read. -/
def marksFrom (begun : Option Text) : Text → Option (List Mark)
  | [] => if begun.isNone then some [] else none
  | c :: rest =>
    match begun with
    | none =>
      if c = '<' then marksFrom (some ['<']) rest
      else (marksFrom none rest).map (.character c :: ·)
    | some tag =>
      if c = '<' then none
      else if c = '>' then (marksFrom none rest).map (.tag (tag ++ ['>']) :: ·)
      else marksFrom (some (tag ++ [c])) rest

def marks (text : Text) : Option (List Mark) := marksFrom none text

def isClosing (tag : Text) : Bool := tag[1]? == some '/'

/-- The name of the element that a tag opens or closes. -/
def tagName (tag : Text) : Text :=
  (tag.drop (if isClosing tag then 2 else 1)).takeWhile fun c => c != ' ' && c != '>'

/-- Follows the open tags, innermost first. Each character is recorded with the tags that are open
around it, outermost first. A closing tag must name the element of the tag that it closes, and at
the end no tag is open. -/
def follow : List Text → List Mark → Option (List (List Text × Char))
  | opened, [] => if opened.isEmpty then some [] else none
  | opened, .character c :: marks => (follow opened marks).map ((opened.reverse, c) :: ·)
  | opened, .tag text :: marks =>
    if isClosing text then
      match opened with
      | [] => none
      | innermost :: opened =>
        if tagName text = tagName innermost then follow opened marks else none
    else follow (text :: opened) marks

/-- The characters of a well-nested text, each with the tags around it. -/
def reading (text : Text) : Option (List (List Text × Char)) :=
  (marks text).bind (follow [])

/-- A tag that reads ends before the next one starts. -/
theorem marksFrom_before {begun : Option Text} {before after : Text} {found : List Mark}
    (reads : marksFrom begun (before ++ '<' :: after) = some found) :
    ∃ found, marksFrom begun before = some found := by
  induction before generalizing begun found with
  | nil =>
    cases begun with
    | none => exact ⟨[], rfl⟩
    | some tag => simp [marksFrom] at reads
  | cons c before ih =>
    simp only [List.cons_append, marksFrom] at reads ⊢
    cases begun with
    | none =>
      dsimp only at reads ⊢
      split at reads
      · rename_i bracket
        rw [if_pos bracket]
        exact ih reads
      · rename_i other
        obtain ⟨rest, reads, _⟩ := Option.map_eq_some_iff.mp reads
        obtain ⟨found, reads⟩ := ih reads
        exact ⟨_, by rw [if_neg other, reads]; rfl⟩
    | some tag =>
      dsimp only at reads ⊢
      split at reads
      · cases reads
      rename_i notOpening
      rw [if_neg notOpening]
      split at reads
      · rename_i bracket
        obtain ⟨rest, reads, _⟩ := Option.map_eq_some_iff.mp reads
        obtain ⟨found, reads⟩ := ih reads
        exact ⟨_, by rw [if_pos bracket, reads]; rfl⟩
      · rename_i other
        rw [if_neg other]
        exact ih reads

theorem marksFrom_inside (tag : Text) {inside : Text} (rest : Text)
    (free : ∀ c ∈ inside, c ≠ '<' ∧ c ≠ '>') :
    marksFrom (some tag) (inside ++ '>' :: rest) =
      (marks rest).map (.tag (tag ++ inside ++ ['>']) :: ·) := by
  induction inside generalizing tag with
  | nil => simp [marksFrom, marks]
  | cons c inside ih =>
    obtain ⟨⟨notOpening, notClosing⟩, free⟩ := List.forall_mem_cons.mp free
    simp only [List.cons_append, marksFrom, if_neg notOpening, if_neg notClosing]
    rw [ih (tag ++ [c]) free]
    simp

theorem marks_tag {inside rest : Text} (free : ∀ c ∈ inside, c ≠ '<' ∧ c ≠ '>') :
    marks ('<' :: (inside ++ ['>']) ++ rest) =
      (marks rest).map (.tag ('<' :: (inside ++ ['>'])) :: ·) := by
  simpa [marks, marksFrom] using marksFrom_inside ['<'] rest free

theorem marks_characters {shown rest : Text} (free : ∀ c ∈ shown, c ≠ '<') :
    marks (shown ++ rest) = (marks rest).map (shown.map .character ++ ·) := by
  induction shown with
  | nil => simp
  | cons c shown ih =>
    obtain ⟨notOpening, free⟩ := List.forall_mem_cons.mp free
    have later := ih free
    simp only [marks] at later
    simp only [List.cons_append, marks, marksFrom, if_neg notOpening, later, Option.map_map,
      List.map_cons]
    rfl

namespace Piece

def character? : Piece → Option Char
  | character c => some c
  | _ => none

def opening? : Piece → Option Element
  | opening element => some element
  | _ => none

def marks : Piece → List Mark
  | opening element => [.tag element.openingTag]
  | closing element => [.tag element.closingTag]
  | character c => (escapeChar c).map .character

/-- The element of a tag has a property. -/
def All (holds : Element → Prop) : Piece → Prop
  | opening element | closing element => holds element
  | character _ => True

def Plain (piece : Piece) : Prop := piece.All Element.Plain

theorem eq_character {piece : Piece} {c : Char} (shown : piece.character? = some c) :
    piece = character c := by
  cases piece with
  | character d => exact congrArg _ (Option.some.inj shown)
  | opening element => cases shown
  | closing element => cases shown

/-- What is not a character is a tag. -/
theorem Plain.print_eq_tag {piece : Piece} (plain : piece.Plain)
    (none : piece.character? = none) :
    ∃ inside, piece.print = '<' :: (inside ++ ['>']) ∧
      (∀ c ∈ inside, c ≠ '<' ∧ c ≠ '>') ∧ '\n' ∉ inside := by
  cases piece with
  | opening element =>
    refine ⟨element.inside, element.openingTag_eq, ?_, ?_⟩
    · intro c mem
      obtain ⟨less, greater, _⟩ := Element.Plain.ne_of_mem_inside plain mem
      exact ⟨less, greater⟩
    · intro mem
      obtain ⟨_, _, newline, _⟩ := Element.Plain.ne_of_mem_inside plain mem
      exact newline rfl
  | closing element =>
    refine ⟨'/' :: element.name, element.closingTag_eq, ?_, ?_⟩
    · refine List.forall_mem_cons.mpr ⟨by decide, ?_⟩
      intro c mem
      obtain ⟨less, greater, _⟩ := ne_of_isAlpha (plain.name c mem)
      exact ⟨less, greater⟩
    · intro mem
      rcases List.mem_cons.mp mem with slash | mem
      · cases slash
      · obtain ⟨_, _, _, _, _, _, newline, _⟩ := ne_of_isAlpha (plain.name _ mem)
        exact newline rfl
  | character c => cases none

theorem marks_eq_tag {piece : Piece} (none : piece.character? = none) :
    piece.marks = [.tag piece.print] := by
  cases piece with
  | opening element => rfl
  | closing element => rfl
  | character c => cases none

theorem Plain.marks_append {piece : Piece} (plain : piece.Plain) (rest : Text) :
    Markup.marks (piece.print ++ rest) = (Markup.marks rest).map (piece.marks ++ ·) := by
  cases shown : piece.character? with
  | none =>
    obtain ⟨inside, tag, free, _⟩ := plain.print_eq_tag shown
    rw [marks_eq_tag shown, tag, marks_tag free]
    rfl
  | some c =>
    obtain rfl := eq_character shown
    apply marks_characters
    intro escaped mem
    exact (ne_of_mem_escapeChar mem).1

end Piece

def characters (pieces : List Piece) : Text := pieces.filterMap Piece.character?

@[simp] theorem characters_append (pieces more : List Piece) :
    characters (pieces ++ more) = characters pieces ++ characters more :=
  List.filterMap_append

@[simp] theorem characters_map_character (s : Text) : characters (s.map .character) = s := by
  induction s with
  | nil => rfl
  | cons c s ih => exact congrArg (c :: ·) ih

def openedElements (pieces : List Piece) : List Element := pieces.filterMap Piece.opening?

@[simp] theorem openedElements_append (pieces more : List Piece) :
    openedElements (pieces ++ more) = openedElements pieces ++ openedElements more :=
  List.filterMap_append

theorem marks_print {pieces : List Piece} (plain : ∀ piece ∈ pieces, piece.Plain) :
    marks (print pieces) = some (pieces.flatMap Piece.marks) := by
  induction pieces with
  | nil => rfl
  | cons piece pieces ih =>
    obtain ⟨here, later⟩ := List.forall_mem_cons.mp plain
    rw [print_cons, here.marks_append, ih later]
    rfl

namespace Element.Plain

variable {element : Element}

theorem isClosing_openingTag (plain : element.Plain) : isClosing element.openingTag = false := by
  cases named : element.name with
  | nil => exact absurd named plain.name_ne_nil
  | cons c name =>
    obtain ⟨_, _, slash, _⟩ := ne_of_isAlpha (plain.name c (by simp [named]))
    simp [isClosing, openingTag, named, slash]

theorem isClosing_closingTag (element : Element) : isClosing element.closingTag = true :=
  rfl

theorem takeWhile_name (plain : element.Plain) {rest : Text}
    (ends : rest.head? = some ' ' ∨ rest.head? = some '>') :
    (element.name ++ rest).takeWhile (fun c => c != ' ' && c != '>') = element.name := by
  rw [List.takeWhile_append_of_pos]
  · rcases ends with ends | ends <;>
    · obtain ⟨rest, rfl⟩ := List.head?_eq_some_iff.mp ends
      simp
  · intro c mem
    obtain ⟨_, greater, _, blank, _⟩ := ne_of_isAlpha (plain.name c mem)
    simp [blank, greater]

theorem tagName_openingTag (plain : element.Plain) :
    tagName element.openingTag = element.name := by
  rw [tagName, plain.isClosing_openingTag, openingTag_eq, inside]
  simp only [Bool.false_eq_true, if_false, List.drop_succ_cons, List.drop_zero, List.append_assoc]
  apply plain.takeWhile_name
  cases element.attributes with
  | nil => exact .inr rfl
  | cons item items => exact .inl rfl

theorem tagName_closingTag (plain : element.Plain) :
    tagName element.closingTag = element.name := by
  rw [tagName, isClosing_closingTag]
  exact plain.takeWhile_name (.inr rfl)

end Element.Plain

theorem follow_openings {elements : List Element} (plain : ∀ element ∈ elements, element.Plain)
    (outer : List Text) (rest : List Mark) :
    follow outer ((elements.map Piece.opening).flatMap Piece.marks ++ rest) =
      follow (elements.reverse.map Element.openingTag ++ outer) rest := by
  induction elements generalizing outer with
  | nil => rfl
  | cons element elements ih =>
    obtain ⟨here, later⟩ := List.forall_mem_cons.mp plain
    have pushed : follow outer (.tag element.openingTag ::
          ((elements.map Piece.opening).flatMap Piece.marks ++ rest)) =
        follow (element.openingTag :: outer)
          ((elements.map Piece.opening).flatMap Piece.marks ++ rest) := by
      simp [follow, here.isClosing_openingTag]
    simpa [Piece.marks, ih later] using pushed

theorem follow_closings {elements : List Element} (plain : ∀ element ∈ elements, element.Plain)
    (outer : List Text) (rest : List Mark) :
    follow (elements.map Element.openingTag ++ outer)
        ((elements.map Piece.closing).flatMap Piece.marks ++ rest) =
      follow outer rest := by
  induction elements with
  | nil => rfl
  | cons element elements ih =>
    obtain ⟨here, later⟩ := List.forall_mem_cons.mp plain
    have popped : follow (element.openingTag :: (elements.map Element.openingTag ++ outer))
          (.tag element.closingTag ::
            ((elements.map Piece.closing).flatMap Piece.marks ++ rest)) =
        follow (elements.map Element.openingTag ++ outer)
          ((elements.map Piece.closing).flatMap Piece.marks ++ rest) := by
      simp [follow, Element.Plain.isClosing_closingTag, here.tagName_closingTag,
        here.tagName_openingTag]
    simpa [Piece.marks] using popped.trans (ih later)

theorem follow_characters (opened : List Text) (shown : Text) (rest : List Mark) :
    follow opened (shown.map .character ++ rest) =
      (follow opened rest).map (shown.map (opened.reverse, ·) ++ ·) := by
  induction shown with
  | nil => simp
  | cons c shown ih =>
    simp only [List.map_cons, List.cons_append, follow, ih, Option.map_map]
    rfl

theorem follow_empty {element : Element} (plain : element.Plain) (opened : List Text)
    (rest : List Mark) :
    follow opened ((Piece.empty element).flatMap Piece.marks ++ rest) = follow opened rest := by
  have elements : ∀ e ∈ [element], e.Plain := by simpa using plain
  have pushed := follow_openings elements opened
    ((([element]).map Piece.closing).flatMap Piece.marks ++ rest)
  simpa [Piece.empty, Piece.marks] using pushed.trans (follow_closings elements opened rest)

theorem follow_empties {elements : List Element} (plain : ∀ element ∈ elements, element.Plain)
    (opened : List Text) (rest : List Mark) :
    follow opened ((elements.flatMap Piece.empty).flatMap Piece.marks ++ rest) =
      follow opened rest := by
  induction elements with
  | nil => rfl
  | cons element elements ih =>
    obtain ⟨here, later⟩ := List.forall_mem_cons.mp plain
    rw [List.flatMap_cons, List.flatMap_append, List.append_assoc, follow_empty here, ih later]

end Hyperlisting.Markup
