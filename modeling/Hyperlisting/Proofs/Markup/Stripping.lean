import Mathlib.Data.List.Basic
import Hyperlisting.Proofs.Markup.Numbering

/-! Taking markup off a document again: line labels go first, then tags, then character references
are replaced, one kind after the other. What is left of printed pieces is their characters. -/

namespace Hyperlisting.Markup

/-- Replaces what matches, leftmost first and without overlap. `matched` tells the length of the
match that a text starts with, zero for none; `skip` characters of a match are still to come. -/
def replaceFrom (matched : Text → Nat) (replacement : Text) : (skip : Nat) → Text → Text
  | _, [] => []
  | skip + 1, _ :: rest => replaceFrom matched replacement skip rest
  | 0, c :: rest =>
    match matched (c :: rest) with
    | 0 => c :: replaceFrom matched replacement 0 rest
    | length + 1 => replacement ++ replaceFrom matched replacement length rest

def replaceMatches (matched : Text → Nat) (replacement text : Text) : Text :=
  replaceFrom matched replacement 0 text

def literalLength (pattern text : Text) : Nat :=
  if pattern.isPrefixOf text then pattern.length else 0

def tagLength : Text → Nat
  | [] => 0
  | c :: rest => if c = '<' ∧ '>' ∈ rest then (rest.takeWhile (· != '>')).length + 2 else 0

def labelStart : Text := "<span class=\"lineno\" id=\"line-".toList

/-- What follows the label of a line that a text starts with: two decimal numbers between the parts
of the label. `alike` tells whether the numbers must be the same. -/
def afterLabel? (alike : Bool) (text : Text) : Option Text := do
  let rest ← labelStart.isPrefixOf? text
  let id := rest.takeWhile Char.isDigit
  let rest ← "\">".toList.isPrefixOf? (rest.dropWhile Char.isDigit)
  let number := rest.takeWhile Char.isDigit
  let rest ← "</span> ".toList.isPrefixOf? (rest.dropWhile Char.isDigit)
  if id = [] ∨ number = [] ∨ (alike = true ∧ id ≠ number) then none else some rest

def labelLength (alike : Bool) (text : Text) : Nat :=
  match afterLabel? alike text with
  | none => 0
  | some rest => text.length - rest.length

/-- The text that a document shows, without its line labels. -/
def plainText (alike : Bool) (document : Text) : Text :=
  let text := replaceMatches (labelLength alike) [] document
  let text := replaceMatches tagLength [] text
  let text := replaceMatches (literalLength "&lt;".toList) ['<'] text
  let text := replaceMatches (literalLength "&gt;".toList) ['>'] text
  let text := replaceMatches (literalLength "&quot;".toList) ['"'] text
  let text := replaceMatches (literalLength "&#39;".toList) ['\''] text
  replaceMatches (literalLength "&amp;".toList) ['&'] text

section Replacing

variable {matched : Text → Nat} {replacement : Text}

theorem replaceFrom_length (found rest : Text) :
    replaceFrom matched replacement found.length (found ++ rest) =
      replaceMatches matched replacement rest := by
  induction found with
  | nil => rfl
  | cons c found ih => exact ih

theorem replaceMatches_match {found rest : Text} (nonempty : found ≠ [])
    (length : matched (found ++ rest) = found.length) :
    replaceMatches matched replacement (found ++ rest) =
      replacement ++ replaceMatches matched replacement rest := by
  obtain ⟨c, found, rfl⟩ := List.exists_cons_of_ne_nil nonempty
  have skipped : replaceFrom matched replacement found.length (found ++ rest) =
      replaceMatches matched replacement rest := replaceFrom_length found rest
  simp only [List.cons_append, List.length_cons] at length ⊢
  rw [← skipped]
  simp only [replaceMatches, replaceFrom, length]

theorem replaceMatches_cons {c : Char} {rest : Text} (none : matched (c :: rest) = 0) :
    replaceMatches matched replacement (c :: rest) =
      c :: replaceMatches matched replacement rest := by
  simp only [replaceMatches, replaceFrom, none]

theorem replaceMatches_append {kept : Text} (rest : Text)
    (none : ∀ c ∈ kept, ∀ more, matched (c :: more) = 0) :
    replaceMatches matched replacement (kept ++ rest) =
      kept ++ replaceMatches matched replacement rest := by
  induction kept with
  | nil => rfl
  | cons c kept ih =>
    obtain ⟨here, later⟩ := List.forall_mem_cons.mp none
    rw [List.cons_append, replaceMatches_cons (here _), ih later]
    rfl

end Replacing

/-- Escaped text in which some characters are themselves again. -/
def escapeBut (known : List Char) (c : Char) : Text :=
  if c ∈ known then [c] else escapeChar c

/-- Escapes start with `&` and hold no other. -/
theorem escapeChar_eq_cons (c : Char) :
    ∃ first rest, escapeChar c = first :: rest ∧ '&' ∉ rest ∧
      ((first = '&' ∧ c ∈ "&<>\"'".toList) ∨ (first = c ∧ first ≠ '&')) := by
  rcases escapeChar_cases c with ⟨rfl, equal⟩ | ⟨rfl, equal⟩ | ⟨rfl, equal⟩ | ⟨rfl, equal⟩ |
    ⟨rfl, equal⟩ | ⟨⟨ampersand, _⟩, equal⟩
  case inr.inr.inr.inr.inr => exact ⟨c, [], equal, by simp, .inr ⟨rfl, ampersand⟩⟩
  all_goals exact ⟨_, _, equal, by decide, .inl ⟨rfl, by decide⟩⟩

theorem literalLength_of_ne {pattern rest : Text} {c : Char}
    (starts : pattern.head? = some '&') (other : c ≠ '&') :
    literalLength pattern (c :: rest) = 0 := by
  obtain ⟨more, rfl⟩ := List.head?_eq_some_iff.mp starts
  simp [literalLength, List.isPrefixOf, Ne.symm other]

theorem literalLength_escapeChar {x c : Char} (special : x ∈ "&<>\"'".toList) (other : c ≠ x)
    (rest : Text) : literalLength (escapeChar x) (escapeChar c ++ rest) = 0 := by
  have cases : x = '&' ∨ x = '<' ∨ x = '>' ∨ x = '"' ∨ x = '\'' := by simpa using special
  rcases escapeChar_cases c with ⟨rfl, equal⟩ | ⟨rfl, equal⟩ | ⟨rfl, equal⟩ | ⟨rfl, equal⟩ |
    ⟨rfl, equal⟩ | ⟨⟨ampersand, _⟩, equal⟩
  case inr.inr.inr.inr.inr =>
    rw [equal]
    rcases cases with rfl | rfl | rfl | rfl | rfl
    all_goals exact literalLength_of_ne rfl ampersand
  all_goals
    rcases cases with rfl | rfl | rfl | rfl | rfl
    all_goals first
      | exact absurd rfl other
      | simp [literalLength, List.isPrefixOf]

theorem replaceMatches_escapeBut (x : Char) (known : List Char)
    (special : x ∈ "&<>\"'".toList) (fresh : x ∉ known) (ampersand : '&' ∉ known) (s : Text) :
    replaceMatches (literalLength (escapeChar x)) [x] (s.flatMap (escapeBut known)) =
      s.flatMap (escapeBut (x :: known)) := by
  have starts : (escapeChar x).head? = some '&' := by
    have cases : x = '&' ∨ x = '<' ∨ x = '>' ∨ x = '"' ∨ x = '\'' := by simpa using special
    rcases cases with rfl | rfl | rfl | rfl | rfl <;> rfl
  induction s with
  | nil => rfl
  | cons c s ih =>
    rw [List.flatMap_cons, List.flatMap_cons, ← ih]
    by_cases same : c = x
    · subst same
      have shown : escapeBut known c = escapeChar c := if_neg fresh
      have done : escapeBut (c :: known) c = [c] := if_pos List.mem_cons_self
      rw [shown, done]
      apply replaceMatches_match
      · intro empty
        simp [empty] at starts
      · simp [literalLength]
    have unchanged : escapeBut (x :: known) c = escapeBut known c := by
      simp [escapeBut, same]
    rw [unchanged]
    by_cases mem : c ∈ known
    · have shown : escapeBut known c = [c] := if_pos mem
      rw [shown]
      apply replaceMatches_append
      intro shown shownMem more
      obtain rfl := List.mem_singleton.mp shownMem
      refine literalLength_of_ne starts ?_
      rintro rfl
      exact ampersand mem
    · have shown : escapeBut known c = escapeChar c := if_neg mem
      have none := literalLength_escapeChar special same
        (s.flatMap (escapeBut known))
      obtain ⟨first, rest, equal, free, _⟩ := escapeChar_eq_cons c
      rw [shown, equal, List.cons_append]
      rw [equal, List.cons_append] at none
      rw [replaceMatches_cons none, replaceMatches_append _ fun shown shownMem more => ?_]
      · rfl
      · refine literalLength_of_ne starts ?_
        rintro rfl
        exact free shownMem

/-- The references replaced one kind after the other, `&` last, give back the text. -/
theorem replace_escape (s : Text) :
    replaceMatches (literalLength "&amp;".toList) ['&']
      (replaceMatches (literalLength "&#39;".toList) ['\'']
        (replaceMatches (literalLength "&quot;".toList) ['"']
          (replaceMatches (literalLength "&gt;".toList) ['>']
            (replaceMatches (literalLength "&lt;".toList) ['<'] (escape s))))) = s := by
  have less : replaceMatches (literalLength "&lt;".toList) ['<'] (escape s) = _ :=
    replaceMatches_escapeBut '<' [] (by decide) (by decide) (by decide) s
  have greater : replaceMatches (literalLength "&gt;".toList) ['>'] _ = _ :=
    replaceMatches_escapeBut '>' ['<'] (by decide) (by decide) (by decide) s
  have quote : replaceMatches (literalLength "&quot;".toList) ['"'] _ = _ :=
    replaceMatches_escapeBut '"' ['>', '<'] (by decide) (by decide) (by decide) s
  have apostrophe : replaceMatches (literalLength "&#39;".toList) ['\''] _ = _ :=
    replaceMatches_escapeBut '\'' ['"', '>', '<'] (by decide) (by decide) (by decide) s
  have ampersand : replaceMatches (literalLength "&amp;".toList) ['&'] _ = _ :=
    replaceMatches_escapeBut '&' ['\'', '"', '>', '<'] (by decide) (by decide) (by decide) s
  rw [less, greater, quote, apostrophe, ampersand]
  apply flatMap_eq_self
  intro c _
  rcases escapeChar_cases c with ⟨rfl, _⟩ | ⟨rfl, _⟩ | ⟨rfl, _⟩ | ⟨rfl, _⟩ | ⟨rfl, _⟩ | ⟨_, same⟩
  case inr.inr.inr.inr.inr => simp [escapeBut, same]
  all_goals rfl

theorem tagLength_tag {inside : Text} (free : ∀ c ∈ inside, c ≠ '<' ∧ c ≠ '>') (rest : Text) :
    tagLength ('<' :: (inside ++ ['>']) ++ rest) = ('<' :: (inside ++ ['>'])).length := by
  have within : (inside ++ '>' :: rest).takeWhile (· != '>') = inside := by
    rw [List.takeWhile_append_of_pos fun c mem => by simpa using (free c mem).2]
    simp
  simp [tagLength, within]

theorem tagLength_of_ne {c : Char} (other : c ≠ '<') (rest : Text) :
    tagLength (c :: rest) = 0 :=
  if_neg fun both => other both.1

theorem replaceMatches_tagLength {pieces : List Piece} (plain : ∀ piece ∈ pieces, piece.Plain) :
    replaceMatches tagLength [] (print pieces) = escape (characters pieces) := by
  induction pieces with
  | nil => rfl
  | cons piece pieces ih =>
    obtain ⟨here, later⟩ := List.forall_mem_cons.mp plain
    rw [print_cons]
    cases shown : piece.character? with
    | none =>
      obtain ⟨inside, tag, free, _⟩ := here.print_eq_tag shown
      have length := tagLength_tag free (print pieces)
      rw [tag, replaceMatches_match (by simp) length, ih later]
      simp [characters, shown]
    | some c =>
      obtain rfl := Piece.eq_character shown
      rw [Piece.print, replaceMatches_append _ fun escaped mem more => ?_, ih later]
      · rfl
      · exact tagLength_of_ne (ne_of_mem_escapeChar mem).1 more

theorem isPrefixOf?_append (first rest : Text) : first.isPrefixOf? (first ++ rest) = some rest :=
  List.isPrefixOf?_eq_some_iff_append_eq.mpr rfl

theorem takeWhile_ofNat (number : Nat) (rest : Text)
    (ends : ∀ c, rest.head? = some c → c.isDigit = false) :
    (Text.ofNat number ++ rest).takeWhile Char.isDigit = Text.ofNat number ∧
      (Text.ofNat number ++ rest).dropWhile Char.isDigit = rest := by
  have digits : ∀ d ∈ Text.ofNat number, d.isDigit = true :=
    fun d mem => Text.isDigit_of_mem_ofNat mem
  rw [List.takeWhile_append_of_pos digits, List.dropWhile_append_of_pos digits]
  cases rest with
  | nil => simp
  | cons c rest => simp [ends c rfl]

theorem afterLabel?_lineLabel (alike : Bool) (number : Nat) (rest : Text) :
    afterLabel? alike (lineLabel number ++ rest) = some rest := by
  have label : lineLabel number ++ rest = labelStart ++ (Text.ofNat number ++
      ("\">".toList ++ (Text.ofNat number ++ ("</span> ".toList ++ rest)))) := by
    unfold lineLabel lineId labelStart
    generalize Text.ofNat number = digits
    simp
  obtain ⟨id, afterId⟩ := takeWhile_ofNat number
    ("\">".toList ++ (Text.ofNat number ++ ("</span> ".toList ++ rest))) (by simp)
  obtain ⟨shown, afterShown⟩ := takeWhile_ofNat number ("</span> ".toList ++ rest) (by simp)
  have nonempty : Text.ofNat number ≠ [] := Nat.toDigits_ne_nil
  rw [label, afterLabel?, isPrefixOf?_append]
  simp only [Option.bind_eq_bind, Option.bind_some, id, afterId, isPrefixOf?_append, shown,
    afterShown]
  simp [nonempty]

theorem labelLength_lineLabel (alike : Bool) (number : Nat) (rest : Text) :
    labelLength alike (lineLabel number ++ rest) = (lineLabel number).length := by
  rw [labelLength, afterLabel?_lineLabel]
  simp

theorem labelLength_eq_zero {alike : Bool} {text : Text} (other : ¬ labelStart <+: text) :
    labelLength alike text = 0 := by
  have none : labelStart.isPrefixOf? text = none := by
    rw [← Option.not_isSome_iff_eq_none, List.isSome_isPrefixOf?_eq_isPrefixOf]
    simpa using other
  simp [labelLength, afterLabel?, none]

/-- No label begins with the tag of the element. -/
def Element.Unlabelled (element : Element) : Prop :=
  ∀ rest, ¬ labelStart <+: element.openingTag ++ rest

theorem not_labelStart_of_ne {c : Char} (other : c ≠ '<') (rest : Text) :
    ¬ labelStart <+: c :: rest := by
  unfold labelStart
  simp [Ne.symm other]

theorem Piece.Plain.not_labelStart {piece : Piece} (plain : piece.Plain)
    (unlabelled : piece.All Element.Unlabelled) (rest : Text) :
    ∃ first tail, piece.print = first :: tail ∧ (∀ c ∈ tail, c ≠ '<') ∧
      ¬ labelStart <+: first :: (tail ++ rest) := by
  cases shown : piece.character? with
  | none =>
    obtain ⟨inside, tag, free, _⟩ := plain.print_eq_tag shown
    refine ⟨'<', inside ++ ['>'], tag, ?_, ?_⟩
    · intro c mem
      rcases List.mem_append.mp mem with mem | mem
      · exact (free c mem).1
      · obtain rfl := List.mem_singleton.mp mem
        decide
    · cases piece with
      | opening element =>
        rw [← List.cons_append, ← tag]
        exact unlabelled rest
      | closing element =>
        rw [← List.cons_append, ← tag, print, Element.closingTag_eq]
        unfold labelStart
        simp
      | character c => cases shown
  | some c =>
    obtain rfl := Piece.eq_character shown
    have less : ∀ escaped ∈ escapeChar c, escaped ≠ '<' := by
      intro escaped mem
      exact (ne_of_mem_escapeChar mem).1
    obtain ⟨first, tail, equal, _⟩ := escapeChar_eq_cons c
    rw [equal] at less
    obtain ⟨here, later⟩ := List.forall_mem_cons.mp less
    exact ⟨first, tail, equal, later, not_labelStart_of_ne here _⟩

theorem replaceMatches_labelLength_print {piece : Piece} (alike : Bool) (plain : piece.Plain)
    (unlabelled : piece.All Element.Unlabelled) (rest : Text) :
    replaceMatches (labelLength alike) [] (piece.print ++ rest) =
      piece.print ++ replaceMatches (labelLength alike) [] rest := by
  obtain ⟨first, tail, equal, free, start⟩ := plain.not_labelStart unlabelled rest
  rw [equal, List.cons_append, replaceMatches_cons (labelLength_eq_zero start),
    replaceMatches_append _ fun c mem more =>
      labelLength_eq_zero (not_labelStart_of_ne (free c mem) more)]
  rfl

theorem replaceMatches_labelPieces (alike : Bool) (number : Nat) (rest : Text) :
    replaceMatches (labelLength alike) [] (print (labelPieces number) ++ rest) =
      replaceMatches (labelLength alike) [] rest := by
  have nonempty : lineLabel number ≠ [] := by
    unfold lineLabel
    generalize Text.ofNat number = digits
    simp
  rw [print_labelPieces, replaceMatches_match nonempty (labelLength_lineLabel alike number rest)]
  rfl

theorem replaceMatches_numberPieces {pieces : List Piece} (alike : Bool) (number : Nat)
    (plain : ∀ piece ∈ pieces, piece.Plain)
    (unlabelled : ∀ piece ∈ pieces, piece.All Element.Unlabelled) :
    replaceMatches (labelLength alike) [] (print (numberPieces number pieces)) =
      print pieces := by
  induction pieces generalizing number with
  | nil => rfl
  | cons piece pieces ih =>
    obtain ⟨here, later⟩ := List.forall_mem_cons.mp plain
    obtain ⟨bare, laterBare⟩ := List.forall_mem_cons.mp unlabelled
    rw [numberPieces, print_cons]
    split
    · rw [print_cons, print_append, replaceMatches_labelLength_print alike here bare]
      split
      · rw [print_nil, List.nil_append, ih _ later laterBare]
      · rw [replaceMatches_labelPieces, ih _ later laterBare]
    · rw [print_cons, replaceMatches_labelLength_print alike here bare, ih _ later laterBare]

/-- Without its line labels, its tags and its escapes a numbered document is its characters. -/
theorem plainText_numberLines {pieces : List Piece} (alike : Bool)
    (plain : ∀ piece ∈ pieces, piece.Plain)
    (unlabelled : ∀ piece ∈ pieces, piece.All Element.Unlabelled) :
    plainText alike (numberLines (print pieces)) = characters pieces := by
  simp only [plainText]
  rw [numberLines_print plain, print_append, replaceMatches_labelPieces,
    replaceMatches_numberPieces alike 1 plain unlabelled, replaceMatches_tagLength plain,
    replace_escape]

end Hyperlisting.Markup
