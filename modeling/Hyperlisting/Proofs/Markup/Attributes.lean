import Mathlib.Data.List.Basic
import Hyperlisting.Proofs.Markup.Reading

/-! Reading what tags say: the attributes of an element come back from its opening tag, values as
they were before escaping. -/

namespace Hyperlisting.Markup

/-- Replaces character references in one pass from left to right. -/
def unescape : Text → Text
  | '&' :: 'a' :: 'm' :: 'p' :: ';' :: rest => '&' :: unescape rest
  | '&' :: 'l' :: 't' :: ';' :: rest => '<' :: unescape rest
  | '&' :: 'g' :: 't' :: ';' :: rest => '>' :: unescape rest
  | '&' :: 'q' :: 'u' :: 'o' :: 't' :: ';' :: rest => '"' :: unescape rest
  | '&' :: '#' :: '3' :: '9' :: ';' :: rest => '\'' :: unescape rest
  | '&' :: '#' :: '1' :: '0' :: ';' :: rest => '\n' :: unescape rest
  | '&' :: '#' :: '1' :: '3' :: ';' :: rest => '\r' :: unescape rest
  | c :: rest => c :: unescape rest
  | [] => []

/-- The attributes in what the quotes of a tag separate: what introduces a value, then the value,
and so on. -/
def attributesBetween : List Text → List Attribute
  | intro :: value :: rest =>
    ⟨((intro.dropWhile (· != ' ')).drop 1).takeWhile (· != '='), unescape value⟩ ::
      attributesBetween rest
  | _ => []

def tagAttributes (tag : Text) : List Attribute := attributesBetween (tag.splitOn '"')

def idValues (items : List Attribute) : List Text :=
  (items.filter fun item => item.name == "id".toList).map Attribute.value

def Mark.ids : Mark → List Text
  | tag text => if isClosing text then [] else idValues (tagAttributes text)
  | character _ => []

/-- The ids of all elements of a document. -/
def ids (document : Text) : List Text := ((marks document).getD []).flatMap Mark.ids

theorem unescape_cons {c : Char} (other : c ≠ '&') (rest : Text) :
    unescape (c :: rest) = c :: unescape rest := by
  rw [unescape.eq_def]
  split <;> simp_all

theorem unescape_escapeChar (c : Char) (rest : Text) :
    unescape (escapeChar c ++ rest) = c :: unescape rest := by
  rcases escapeChar_cases c with ⟨rfl, equal⟩ | ⟨rfl, equal⟩ | ⟨rfl, equal⟩ | ⟨rfl, equal⟩ |
    ⟨rfl, equal⟩ | ⟨⟨ampersand, _⟩, equal⟩
  all_goals rw [equal]
  case inr.inr.inr.inr.inr => exact unescape_cons ampersand rest
  all_goals
    simp [unescape]

theorem unescape_append_of_not_mem {kept : Text} (clear : '&' ∉ kept) (rest : Text) :
    unescape (kept ++ rest) = kept ++ unescape rest := by
  induction kept with
  | nil => rfl
  | cons c kept ih =>
    obtain ⟨other, clear⟩ := not_or.mp (mt List.mem_cons.mpr clear)
    rw [List.cons_append, unescape_cons (Ne.symm other), ih clear, List.cons_append]

theorem unescape_escape_append (text rest : Text) :
    unescape (escape text ++ rest) = text ++ unescape rest := by
  induction text with
  | nil => rfl
  | cons c text ih =>
    rw [escape_cons, List.append_assoc, unescape_escapeChar, ih, List.cons_append]

theorem unescape_escape (text : Text) : unescape (escape text) = text := by
  simpa [unescape] using unescape_escape_append text []

theorem unescape_escapeAttributeChar (c : Char) (rest : Text) :
    unescape (escapeAttributeChar c ++ rest) = c :: unescape rest := by
  unfold escapeAttributeChar
  split
  · simp [unescape]
  · simp [unescape]
  · exact unescape_escapeChar _ rest

theorem unescape_escapeAttribute (value : Text) : unescape (escapeAttribute value) = value := by
  induction value with
  | nil => rfl
  | cons c value ih => rw [escapeAttribute_cons, unescape_escapeAttributeChar, ih]

theorem nameBetween {before name : Text} (solid : ∀ c ∈ before, c ≠ ' ')
    (letters : ∀ c ∈ name, c.isAlpha = true) :
    (((before ++ ' ' :: (name ++ ['='])).dropWhile (· != ' ')).drop 1).takeWhile (· != '=') =
      name := by
  rw [List.dropWhile_append_of_pos fun c mem => by simpa using solid c mem]
  have stops : ((' ' :: (name ++ ['='])).dropWhile (· != ' ')).drop 1 = name ++ ['='] := by simp
  rw [stops, List.takeWhile_append_of_pos]
  · simp
  · intro c mem
    obtain ⟨_, _, _, _, equals, _⟩ := ne_of_isAlpha (letters c mem)
    simpa using equals

/-- The quotes of the first value end what introduces it, and the value. -/
theorem tagAttributes_quoted {intro value : Text} (introUnquoted : '"' ∉ intro)
    (valueUnquoted : '"' ∉ value) (rest : Text) :
    tagAttributes (intro ++ '"' :: (value ++ '"' :: rest)) =
      ⟨((intro.dropWhile (· != ' ')).drop 1).takeWhile (· != '='), unescape value⟩ ::
        tagAttributes rest := by
  rw [tagAttributes, List.splitOn_append_cons_self_of_not_mem introUnquoted,
    List.splitOn_append_cons_self_of_not_mem valueUnquoted, attributesBetween, tagAttributes]

theorem tagAttributes_unquoted {rest : Text} (unquoted : '"' ∉ rest) : tagAttributes rest = [] := by
  simp [tagAttributes, List.splitOn_eq_singleton unquoted, attributesBetween]

/-- Printed attributes come back one after the other, whatever stands before the first blank. -/
theorem attributesBetween_print {items : List Attribute} {before : Text}
    (solid : ∀ c ∈ before, c ≠ ' ' ∧ c ≠ '"')
    (letters : ∀ item ∈ items, ∀ c ∈ item.name, c.isAlpha = true) :
    tagAttributes (before ++ items.flatMap Attribute.print ++ ['>']) = items := by
  induction items generalizing before with
  | nil =>
    have unquoted : '"' ∉ before ++ ['>'] := by
      intro mem
      rcases List.mem_append.mp mem with mem | mem
      · exact (solid _ mem).2 rfl
      · simp at mem
    rw [List.flatMap_nil, List.append_nil, tagAttributes_unquoted unquoted]
  | cons item items ih =>
    obtain ⟨name, value⟩ := item
    obtain ⟨here, later⟩ := List.forall_mem_cons.mp letters
    have tag : before ++ (⟨name, value⟩ :: items).flatMap Attribute.print ++ ['>'] =
        (before ++ ' ' :: (name ++ ['='])) ++ '"' :: (escapeAttribute value ++
          '"' :: ([] ++ items.flatMap Attribute.print ++ ['>'])) := by
      simp [Attribute.print]
    have unquoted : '"' ∉ before ++ ' ' :: (name ++ ['=']) := by
      intro mem
      simp only [List.mem_append, List.mem_cons] at mem
      rcases mem with mem | mem | mem | mem | mem
      · exact (solid _ mem).2 rfl
      · exact absurd mem (by decide)
      · obtain ⟨_, _, _, _, _, quote, _⟩ := ne_of_isAlpha (here _ mem)
        exact quote rfl
      · exact absurd mem (by decide)
      · exact absurd mem List.not_mem_nil
    rw [tag, tagAttributes_quoted unquoted (quote_not_mem_escapeAttribute value),
      ih (fun c mem => absurd mem List.not_mem_nil) later,
      nameBetween (fun c mem => (solid c mem).1) here, unescape_escapeAttribute]

theorem Element.Plain.tagAttributes_openingTag {element : Element} (plain : element.Plain) :
    tagAttributes element.openingTag = element.attributes := by
  have solid : ∀ c ∈ '<' :: element.name, c ≠ ' ' ∧ c ≠ '"' := by
    refine List.forall_mem_cons.mpr ⟨by decide, ?_⟩
    intro c mem
    obtain ⟨_, _, _, blank, _, quote, _⟩ := ne_of_isAlpha (plain.name c mem)
    exact ⟨blank, quote⟩
  exact attributesBetween_print solid plain.attributes

def Element.ids (element : Element) : List Text := idValues element.attributes

theorem Piece.Plain.ids_marks {piece : Piece} (plain : piece.Plain) :
    piece.marks.flatMap Mark.ids = piece.opening?.toList.flatMap Element.ids := by
  cases piece with
  | opening element =>
    have opens : isClosing element.openingTag = false := plain.isClosing_openingTag
    have items : tagAttributes element.openingTag = element.attributes :=
      plain.tagAttributes_openingTag
    simp [marks, Mark.ids, opens, items, opening?, Element.ids]
  | closing element => simp [marks, Mark.ids, Element.Plain.isClosing_closingTag, opening?]
  | character c => simp [marks, Mark.ids, opening?, List.flatMap_map]

theorem ids_print {pieces : List Piece} (plain : ∀ piece ∈ pieces, piece.Plain) :
    ids (print pieces) = (openedElements pieces).flatMap Element.ids := by
  rw [ids, marks_print plain, Option.getD_some]
  induction pieces with
  | nil => rfl
  | cons piece pieces ih =>
    obtain ⟨here, later⟩ := List.forall_mem_cons.mp plain
    rw [List.flatMap_cons, List.flatMap_append, here.ids_marks, ih later]
    simp only [openedElements, List.filterMap_cons]
    cases piece.opening? with
    | none => rfl
    | some element => simp

end Hyperlisting.Markup
