import Hyperlisting.Markup.Element

/-! What escaped text cannot hold: no character that starts or ends a tag or a quoted value, and in
attribute values no line end. Names of elements and attributes are letters. -/

namespace Hyperlisting.Markup

theorem escapeChar_cases (c : Char) :
    (c = '&' ∧ escapeChar c = "&amp;".toList) ∨ (c = '<' ∧ escapeChar c = "&lt;".toList) ∨
      (c = '>' ∧ escapeChar c = "&gt;".toList) ∨ (c = '"' ∧ escapeChar c = "&quot;".toList) ∨
      (c = '\'' ∧ escapeChar c = "&#39;".toList) ∨
      ((c ≠ '&' ∧ c ≠ '<' ∧ c ≠ '>' ∧ c ≠ '"' ∧ c ≠ '\'') ∧ escapeChar c = [c]) := by
  unfold escapeChar
  split <;> simp_all

@[simp] theorem escapeChar_ampersand : escapeChar '&' = "&amp;".toList := rfl

@[simp] theorem escapeChar_less : escapeChar '<' = "&lt;".toList := rfl

@[simp] theorem escapeChar_greater : escapeChar '>' = "&gt;".toList := rfl

@[simp] theorem escapeChar_quote : escapeChar '"' = "&quot;".toList := rfl

@[simp] theorem escapeChar_apostrophe : escapeChar '\'' = "&#39;".toList := rfl

@[simp] theorem escapeChar_newline : escapeChar '\n' = ['\n'] := rfl

@[simp] theorem escapeChar_blank : escapeChar ' ' = [' '] := rfl

@[simp] theorem escapeAttribute_append (s t : Text) :
    escapeAttribute (s ++ t) = escapeAttribute s ++ escapeAttribute t :=
  List.flatMap_append

/-- The characters that the escapes are made of. -/
def escapeAlphabet : Text := "&#;ampltgquo0139".toList

theorem mem_escapeChar {c shown : Char} (mem : shown ∈ escapeChar c) :
    shown ∈ escapeAlphabet ∨ shown = c ∧ c ≠ '<' ∧ c ≠ '>' ∧ c ≠ '"' ∧ c ≠ '\'' := by
  rcases escapeChar_cases c with ⟨_, equal⟩ | ⟨_, equal⟩ | ⟨_, equal⟩ | ⟨_, equal⟩ | ⟨_, equal⟩ |
    ⟨⟨_, others⟩, equal⟩
  all_goals rw [equal] at mem
  case inr.inr.inr.inr.inr => exact .inr ⟨List.mem_singleton.mp mem, others⟩
  all_goals
    left
    refine List.subset_def.mp ?_ mem
    decide

theorem mem_escapeAttributeChar {c shown : Char} (mem : shown ∈ escapeAttributeChar c) :
    shown ∈ escapeAlphabet ∨
      shown = c ∧ c ≠ '<' ∧ c ≠ '>' ∧ c ≠ '"' ∧ c ≠ '\n' ∧ c ≠ '\r' := by
  have lineEnds : "&#10;".toList ⊆ escapeAlphabet ∧ "&#13;".toList ⊆ escapeAlphabet := by decide
  unfold escapeAttributeChar at mem
  split at mem
  · exact .inl (lineEnds.1 mem)
  · exact .inl (lineEnds.2 mem)
  · rename_i newline carriage
    rcases mem_escapeChar mem with known | ⟨same, less, greater, quote, _⟩
    · exact .inl known
    · exact .inr ⟨same, less, greater, quote, newline, carriage⟩

theorem ne_of_mem_escapeAlphabet {c : Char} (known : c ∈ escapeAlphabet) :
    c ≠ '<' ∧ c ≠ '>' ∧ c ≠ '"' ∧ c ≠ '\'' ∧ c ≠ '\n' ∧ c ≠ '\r' := by
  refine ⟨?_, ?_, ?_, ?_, ?_, ?_⟩ <;> rintro rfl <;> exact absurd known (by decide)

/-- No character of escaped text starts or ends a tag or a value. -/
theorem ne_of_mem_escapeChar {c shown : Char} (mem : shown ∈ escapeChar c) :
    shown ≠ '<' ∧ shown ≠ '>' ∧ shown ≠ '"' ∧ shown ≠ '\'' := by
  rcases mem_escapeChar mem with known | ⟨rfl, others⟩
  · obtain ⟨less, greater, quote, apostrophe, _⟩ := ne_of_mem_escapeAlphabet known
    exact ⟨less, greater, quote, apostrophe⟩
  · exact others

theorem quote_not_mem_escape (text : Text) : '"' ∉ escape text := by
  intro mem
  obtain ⟨c, -, mem⟩ := List.mem_flatMap.mp mem
  exact (ne_of_mem_escapeChar mem).2.2.1 rfl

/-- No character of an attribute value ends the value, the tag or the line. -/
theorem ne_of_mem_escapeAttribute {s : Text} {shown : Char} (mem : shown ∈ escapeAttribute s) :
    shown ≠ '<' ∧ shown ≠ '>' ∧ shown ≠ '"' ∧ shown ≠ '\n' ∧ shown ≠ '\r' := by
  obtain ⟨c, _, mem⟩ := List.mem_flatMap.mp mem
  rcases mem_escapeAttributeChar mem with known | ⟨rfl, others⟩
  · obtain ⟨less, greater, quote, _, newline, carriage⟩ := ne_of_mem_escapeAlphabet known
    exact ⟨less, greater, quote, newline, carriage⟩
  · exact others

theorem quote_not_mem_escapeAttribute (value : Text) : '"' ∉ escapeAttribute value := by
  intro mem
  obtain ⟨_, _, quote, _⟩ := ne_of_mem_escapeAttribute mem
  exact quote rfl

/-- Names of elements and attributes are letters. -/
structure Element.Plain (element : Element) : Prop where
  name_ne_nil : element.name ≠ []
  name : ∀ c ∈ element.name, c.isAlpha = true
  attributes : ∀ item ∈ element.attributes, ∀ c ∈ item.name, c.isAlpha = true

theorem ne_of_isAlpha {c : Char} (letter : c.isAlpha = true) :
    c ≠ '<' ∧ c ≠ '>' ∧ c ≠ '/' ∧ c ≠ ' ' ∧ c ≠ '=' ∧ c ≠ '"' ∧ c ≠ '\n' ∧ c ≠ '\r' := by
  refine ⟨?_, ?_, ?_, ?_, ?_, ?_, ?_, ?_⟩ <;> rintro rfl <;> exact absurd letter (by decide)

namespace Element

def inside (element : Element) : Text :=
  element.name ++ element.attributes.flatMap Attribute.print

theorem openingTag_eq (element : Element) :
    element.openingTag = '<' :: (element.inside ++ ['>']) := by
  simp [openingTag, inside]

theorem closingTag_eq (element : Element) :
    element.closingTag = '<' :: ('/' :: element.name ++ ['>']) :=
  rfl

theorem Plain.ne_of_mem_inside {element : Element} (plain : element.Plain) {c : Char}
    (mem : c ∈ element.inside) : c ≠ '<' ∧ c ≠ '>' ∧ c ≠ '\n' ∧ c ≠ '\r' := by
  rcases List.mem_append.mp mem with mem | mem
  · obtain ⟨less, greater, _, _, _, _, newline, carriage⟩ := ne_of_isAlpha (plain.name c mem)
    exact ⟨less, greater, newline, carriage⟩
  · obtain ⟨item, itemMem, mem⟩ := List.mem_flatMap.mp mem
    simp only [Attribute.print, List.mem_append, List.mem_cons] at mem
    rcases mem with (((rfl | mem) | mem) | mem) | mem
    · decide
    · obtain ⟨less, greater, _, _, _, _, newline, carriage⟩ :=
        ne_of_isAlpha (plain.attributes item itemMem c mem)
      exact ⟨less, greater, newline, carriage⟩
    · refine ⟨?_, ?_, ?_, ?_⟩ <;> rintro rfl <;> exact absurd mem (by decide)
    · obtain ⟨less, greater, _, newline, carriage⟩ := ne_of_mem_escapeAttribute mem
      exact ⟨less, greater, newline, carriage⟩
    · simp only [List.not_mem_nil, or_false] at mem
      subst mem
      decide

end Element

end Hyperlisting.Markup
