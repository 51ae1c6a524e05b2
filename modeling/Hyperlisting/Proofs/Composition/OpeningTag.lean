import Hyperlisting.Proofs.Composition.Pieces
import Hyperlisting.Proofs.Markup.Attributes

/-! Opening tags read back. A reader that knows only letters, blanks, quotes and character
references finds in the tag of a run what the run says of its range, and the tooltip if it has one:
no string of a run or of a path ends a value, the tag or the line. -/

namespace Hyperlisting

open Markup

namespace Markup

/-- What a reader of attributes is in the middle of. -/
inductive AttributeState where
  /-- Outside all attributes. -/
  | between
  | name (begun : Text)
  | value (name begun : Text)

/-- The attributes up to the end of a tag, from what was read already: each has a blank, a name of
letters, `=` and a value in quotes, and `>` comes last. -/
def readAttributes : AttributeState → Text → Option (List Attribute)
  | .between, ['>'] => some []
  | .between, ' ' :: rest => readAttributes (.name []) rest
  | .name begun, '=' :: '"' :: rest =>
    if begun = [] then none else readAttributes (.value begun []) rest
  | .name begun, c :: rest => if c.isAlpha then readAttributes (.name (begun ++ [c])) rest else none
  | .value name begun, c :: rest =>
    if c = '"' then (readAttributes .between rest).map (⟨name, unescape begun⟩ :: ·)
    else readAttributes (.value name (begun ++ [c])) rest
  | _, _ => none

/-- An opening tag: `<`, the name of an element in letters, and attributes. -/
def readTag : Text → Option Element
  | '<' :: rest =>
    let name := rest.takeWhile Char.isAlpha
    if name = [] then none
    else (readAttributes .between (rest.drop name.length)).map (⟨name, ·⟩)
  | _ => none

theorem readAttributes_name (begun : Text) {name : Text} (letters : ∀ c ∈ name, c.isAlpha = true)
    (nonempty : begun ++ name ≠ []) (rest : Text) :
    readAttributes (.name begun) (name ++ '=' :: '"' :: rest) =
      readAttributes (.value (begun ++ name) []) rest := by
  induction name generalizing begun with
  | nil =>
    rw [List.append_nil] at nonempty ⊢
    rw [List.nil_append, readAttributes, if_neg nonempty]
  | cons c name ih =>
    obtain ⟨letter, letters⟩ := List.forall_mem_cons.mp letters
    have equals : c ≠ '=' := (ne_of_isAlpha letter).2.2.2.2.1
    have later := ih (begun ++ [c]) letters (by simp)
    rw [List.append_assoc, List.singleton_append] at later
    rw [List.cons_append, readAttributes, if_pos letter, later]
    exact fun _ same _ => equals same

theorem readAttributes_value (name begun : Text) {value : Text} (unquoted : '"' ∉ value)
    (rest : Text) :
    readAttributes (.value name begun) (value ++ '"' :: rest) =
      (readAttributes .between rest).map (⟨name, unescape (begun ++ value)⟩ :: ·) := by
  induction value generalizing begun with
  | nil => rw [List.nil_append, List.append_nil, readAttributes, if_pos rfl]
  | cons c value ih =>
    obtain ⟨quote, unquoted⟩ := not_or.mp (mt List.mem_cons.mpr unquoted)
    rw [List.cons_append, readAttributes, if_neg (Ne.symm quote), ih _ unquoted, List.append_assoc,
      List.singleton_append]

/-- One attribute is read as it was before its value was escaped. -/
theorem readAttributes_print {item : Attribute} (nonempty : item.name ≠ [])
    (letters : ∀ c ∈ item.name, c.isAlpha = true) (rest : Text) :
    readAttributes .between (item.print ++ rest) =
      (readAttributes .between rest).map (item :: ·) := by
  have written : item.print ++ rest =
      ' ' :: (item.name ++ '=' :: '"' :: (escapeAttribute item.value ++ '"' :: rest)) := by
    simp [Attribute.print]
  have named := readAttributes_name [] letters nonempty
  have valued := readAttributes_value item.name []
    (quote_not_mem_escapeAttribute item.value) rest
  rw [List.nil_append, unescape_escapeAttribute] at valued
  rw [written, readAttributes, named, List.nil_append, valued]

theorem readAttributes_flatMap_print {items : List Attribute}
    (nonempty : ∀ item ∈ items, item.name ≠ [])
    (letters : ∀ item ∈ items, ∀ c ∈ item.name, c.isAlpha = true) :
    readAttributes .between (items.flatMap Attribute.print ++ ['>']) = some items := by
  induction items with
  | nil => rfl
  | cons item items ih =>
    obtain ⟨itemNonempty, nonempty⟩ := List.forall_mem_cons.mp nonempty
    obtain ⟨itemLetters, letters⟩ := List.forall_mem_cons.mp letters
    rw [List.flatMap_cons, List.append_assoc, readAttributes_print itemNonempty itemLetters,
      ih nonempty letters]
    rfl

/-- The name of an element ends where its attributes or its tag do. -/
theorem Element.Plain.takeWhile_isAlpha {element : Element} (plain : element.Plain) :
    (element.inside ++ ['>']).takeWhile Char.isAlpha = element.name := by
  rw [inside, List.append_assoc, List.takeWhile_append_of_pos plain.name]
  cases element.attributes with
  | nil => simp [show Char.isAlpha '>' = false from rfl]
  | cons item items => simp [Attribute.print, show Char.isAlpha ' ' = false from rfl]

/-- An element comes back from its opening tag. -/
theorem Element.Plain.readTag_eq {element : Element} (plain : element.Plain)
    (named : ∀ item ∈ element.attributes, item.name ≠ []) :
    readTag element.openingTag = some element := by
  have rest : (element.inside ++ ['>']).drop element.name.length =
      element.attributes.flatMap Attribute.print ++ ['>'] := by
    rw [inside, List.append_assoc, List.drop_left]
  rw [openingTag_eq, readTag, plain.takeWhile_isAlpha, if_neg plain.name_ne_nil, rest,
    readAttributes_flatMap_print named plain.attributes]
  rfl

end Markup

/-- The element that shows a treatment. -/
def Treatment.elementName : Treatment → Text
  | style _ | anchor _ => "span".toList
  | link _ => "a".toList

/-- What the tag of a treatment says. -/
def Treatment.attribute (page : Path) : Treatment → Attribute
  | style className => ⟨"class".toList, className⟩
  | link destination => ⟨"href".toList, Href.relative page destination⟩
  | anchor id => ⟨"id".toList, id⟩

theorem Run.element_eq (page : Path) (run : Run) :
    run.element page = ⟨run.treatment.elementName,
      run.treatment.attribute page :: run.tooltip.toList.map (⟨"title".toList, ·⟩)⟩ := by
  unfold Run.element
  cases run.treatment <;> rfl

/-- Whatever the strings of a run and the path of the page are, the opening tag of the run is one
tag on one line, and it reads as the attribute of the treatment, and after it the tooltip if there
is one. -/
theorem Run.readTag_openingTag (run : Run) (page : Path) :
    (∃ inside, (run.element page).openingTag = '<' :: (inside ++ ['>']) ∧
      ∀ c ∈ inside, c ≠ '<' ∧ c ≠ '>' ∧ c ≠ '\n' ∧ c ≠ '\r') ∧
    readTag (run.element page).openingTag = some ⟨run.treatment.elementName,
      run.treatment.attribute page :: run.tooltip.toList.map (⟨"title".toList, ·⟩)⟩ := by
  have plain := run.element_plain page
  constructor
  · exact ⟨_, Element.openingTag_eq _, fun c mem => plain.ne_of_mem_inside mem⟩
  · have named : ∀ item ∈ (run.element page).attributes, item.name ≠ [] := by
      rw [run.element_eq]
      refine List.forall_mem_cons.mpr ⟨?_, ?_⟩
      · cases run.treatment <;> simp [Treatment.attribute]
      · simp
    rw [plain.readTag_eq named, run.element_eq]

/-- A class that looks like the end of its tag is still a class. -/
example : (readTag ((Run.mk 0 1 (.style "\"><b>&amp;\n".toList) none).element
      ⟨"/out/a.py.html".toList⟩).openingTag).map
        (·.attributes.map fun item => (item.name, item.value)) =
    some [("class".toList, "\"><b>&amp;\n".toList)] := by
  decide +kernel

end Hyperlisting
