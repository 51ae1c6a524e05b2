import Mathlib.Data.List.Induction
import Hyperlisting.Proofs.Declaration.Sites
import Hyperlisting.Proofs.Token.Following

/-! Which names are assigned at the start of a line. Only the next token counts, so an equals sign
that is next to other operator characters is none, and one that stands behind delimiters or line ends
is one. -/

namespace Hyperlisting

theorem Place.startsLine_of_column_eq_zero {before : Text} (first : (after before).column = 0) :
    (after before).startsLine = true := by
  induction before using List.reverseRecOn with
  | nil => rfl
  | append_singleton before c _ =>
    have next : after (before ++ [c]) = (after before).next c := by simp [after]
    have positive := c.utf8Size_pos
    rw [next, Place.next] at first ⊢
    by_cases ends : c = '\n'
    · simp [ends]
    · simp only [ends, if_false] at first
      omega

namespace Declaration

open Token Unicode

variable {source s rest : Text} {token name : Token} {next : Option Token} {c : Char}

def isBlank (c : Char) : Bool := c = ' ' || c = '\t'

/-- The first character that is no blank or tab is an equals sign, and no second one follows it. -/
def Assigns (s : Text) : Prop :=
  ∃ rest, s.dropWhile isBlank = '=' :: rest ∧ rest.head? ≠ some '='

/-- The equals sign is the first token, and an operator by itself. -/
def EqualsFirst (s : Text) : Prop :=
  ∃ gap rest, s = gap ++ '=' :: rest ∧ Silent ('=' :: rest) gap ∧
    ∀ c ∈ rest.head?, isOperatorChar c = false

theorem first?_equals_iff : first? ('=' :: rest) = some (.operator, "=".toList) ↔
    ∀ c ∈ rest.head?, isOperatorChar c = false := by
  rw [first?_of_isOperatorChar (by decide)]
  cases rest with
  | nil => simp
  | cons c rest => simp [List.takeWhile_cons]

theorem comesFirst_equals_iff : ComesFirst .operator "=".toList s ↔ EqualsFirst s := by
  refine exists_congr fun gap => exists_congr fun rest => ?_
  exact and_congr_right fun _ => and_congr_right fun _ => first?_equals_iff

theorem passedOver_of_isBlank (blank : isBlank c = true) (rest : Text) : PassedOver c rest := by
  have passed : isQuote c = false ∧ c ≠ '#' ∧ isWord c = false ∧ isOperatorChar c = false ∧
      c ≠ '@' ∧ c ≠ '.' := by
    rcases (by simpa [isBlank] using blank : c = ' ' ∨ c = '\t') with rfl | rfl <;> decide
  obtain ⟨notQuote, notHash, notWord, notOperator, notAt, notPoint⟩ := passed
  exact ⟨notQuote, notHash, notWord, notOperator, (absurd · notAt), (absurd · notPoint)⟩

theorem equalsFirst_cons (passed : PassedOver c rest) :
    EqualsFirst (c :: rest) ↔ EqualsFirst rest := by
  rw [← comesFirst_equals_iff, ← comesFirst_equals_iff, comesFirst_cons passed]

theorem equalsFirst_dropWhile : EqualsFirst (s.dropWhile isBlank) ↔ EqualsFirst s := by
  induction s with
  | nil => rfl
  | cons c s ih =>
    rw [List.dropWhile_cons]
    split
    · rename_i blank
      rw [ih, equalsFirst_cons (passedOver_of_isBlank blank s)]
    · rfl

theorem equalsFirst_equals_iff :
    EqualsFirst ('=' :: rest) ↔ ∀ c ∈ rest.head?, isOperatorChar c = false := by
  rw [← comesFirst_equals_iff, comesFirst_iff_of_first? (first?_of_isOperatorChar (by decide) _),
    ← first?_equals_iff, first?_of_isOperatorChar (by decide), Option.some_inj]

/-- Where a token starts that is not an equals sign, that one comes first. -/
theorem passedOver_of_equalsFirst (equals : EqualsFirst (c :: rest)) (other : c ≠ '=') :
    PassedOver c rest := by
  obtain ⟨_ | ⟨_, gap⟩, more, whole, silent, -⟩ := equals
  · exact absurd (List.cons.inj whole).1 other
  · obtain ⟨rfl, rfl⟩ := List.cons.inj whole
    exact silent.1

/-- An assignment is missed exactly if the equals sign is glued to another operator character. -/
theorem assigns_and_not_equalsFirst_iff : Assigns s ∧ ¬ EqualsFirst s ↔
    ∃ c rest, s.dropWhile isBlank = '=' :: c :: rest ∧ c ≠ '=' ∧ isOperatorChar c = true := by
  rw [← equalsFirst_dropWhile, Assigns]
  constructor
  case mp =>
    rintro ⟨⟨rest, behind, single⟩, missed⟩
    rw [behind, equalsFirst_equals_iff] at missed
    cases rest with
    | nil => simp at missed
    | cons c rest => exact ⟨c, rest, behind, by simpa using single, by simpa using missed⟩
  case mpr =>
    rintro ⟨c, rest, behind, other, isOperator⟩
    rw [behind, equalsFirst_equals_iff]
    exact ⟨⟨c :: rest, rfl, by simpa using other⟩, by simpa using isOperator⟩

/-- An assignment is found where none is exactly if other characters than blanks and tabs are passed
over in front of the equals sign. -/
theorem equalsFirst_and_not_assigns_iff : EqualsFirst s ∧ ¬ Assigns s ↔
    ∃ c rest, s.dropWhile isBlank = c :: rest ∧ PassedOver c rest ∧ EqualsFirst rest := by
  rw [← equalsFirst_dropWhile, Assigns]
  constructor
  case mp =>
    rintro ⟨equals, none⟩
    cases behind : s.dropWhile isBlank with
    | nil =>
      rw [behind] at equals
      obtain ⟨gap, rest, whole, -⟩ := equals
      simp at whole
    | cons c rest =>
      rw [behind] at equals none
      have other : c ≠ '=' := by
        rintro rfl
        refine none ⟨rest, rfl, fun second => ?_⟩
        have notOperator := equalsFirst_equals_iff.mp equals '=' second
        exact absurd notOperator (by decide)
      have passed := passedOver_of_equalsFirst equals other
      exact ⟨c, rest, rfl, passed, (equalsFirst_cons passed).mp equals⟩
  case mpr =>
    rintro ⟨c, rest, behind, passed, equals⟩
    rw [behind, equalsFirst_cons passed]
    refine ⟨equals, ?_⟩
    rintro ⟨_, same, -⟩
    obtain ⟨rfl, -⟩ := List.cons.inj same
    exact absurd passed.notOperator (by decide)

theorem introduced?_eq_assignment_iff : introduced? token next = some (.assignment, name) ↔
    name = token ∧ token.kind = .name ∧ token.place.startsLine = true ∧ token.place.column = 0 ∧
      isKeyword token.text = false ∧
      ∃ following, next = some following ∧ following.kind = .operator ∧
        following.text = "=".toList := by
  rw [introduced?_eq_some_iff]
  constructor
  · rintro ⟨isName, startsLine, following, rfl, introduction⟩
    cases introduction with
    | assignment column ordinary operator equals =>
      exact ⟨rfl, isName, startsLine, column, ordinary, following, rfl, operator, equals⟩
  · rintro ⟨rfl, isName, startsLine, column, ordinary, following, rfl, operator, equals⟩
    exact ⟨isName, startsLine, following, rfl, .assignment column ordinary operator equals⟩

/-- The declarations of the text have an assignment to the name that the token is. -/
def AssignedAt (file : Path) (source : Text) (first : Nat) (token : Token) : Prop :=
  ∃ declaration ∈ ofSource file source first,
    declaration.kind = .assignment ∧ declaration.StandsAt token

theorem startsLine_of_column_eq_zero (part : PartOf source token)
    (first : token.place.column = 0) : token.place.startsLine = true := by
  obtain ⟨before, _, _, place, _⟩ := part
  rw [place] at first ⊢
  exact Place.startsLine_of_column_eq_zero first

theorem assignedAt_iff_exists_site {file : Path} {first : Nat} :
    AssignedAt file source first token ↔
      ∃ site ∈ sites (tokenize source), site.kind = .assignment ∧ site.name.text = token.text ∧
        site.name.place.line = token.place.line ∧ site.name.start = token.start := by
  refine exists_mem_collect_iff fun site declaration records => ?_
  rw [records.kind]
  refine and_congr_right fun _ => ⟨?_, ?_⟩
  · rintro ⟨name, line, start⟩
    exact ⟨records.name.name ▸ name, records.name.line ▸ line, records.name.start ▸ start⟩
  · rintro ⟨name, line, start⟩
    exact ⟨records.name.name.trans name, records.name.line.trans line,
      records.name.start.trans start⟩

theorem assignedAt_iff_equalsFirst {file : Path} {first : Nat} (mem : token ∈ tokenize source)
    (isName : token.kind = .name) (column : token.place.column = 0)
    (ordinary : isKeyword token.text = false) :
    AssignedAt file source first token ↔ EqualsFirst (source.dropBytes token.stop) := by
  rw [assignedAt_iff_exists_site, ← comesFirst_equals_iff]
  constructor
  case mp =>
    rintro ⟨site, siteMem, binds, -, -, start⟩
    obtain ⟨earlier, later, split, introduced⟩ := mem_sites_iff.mp siteMem
    rw [binds] at introduced
    obtain ⟨ownName, -, -, -, -, following⟩ := introduced?_eq_assignment_iff.mp introduced
    have firstMem : site.first ∈ tokenize source := by simp [split]
    rw [ownName] at start
    rw [eq_of_start_eq firstMem mem start] at split
    exact (comesFirst_dropBytes_iff split).mpr following
  case mpr =>
    intro equals
    obtain ⟨earlier, later, split⟩ := List.append_of_mem mem
    have startsLine := startsLine_of_column_eq_zero (partOf_tokenize mem) column
    have introduced := introduced?_eq_assignment_iff.mpr ⟨rfl, isName, startsLine, column, ordinary,
      (comesFirst_dropBytes_iff split).mp equals⟩
    exact ⟨⟨token, .assignment, token⟩, mem_sites_iff.mpr ⟨earlier, later, split, introduced⟩,
      rfl, rfl, rfl, rfl⟩

/-- A name at the start of a line is recorded exactly if the next token is a lone equals sign. So an
assignment is missed where the equals sign is next to another operator character and only there, and
one is made up where other characters than blanks and tabs are passed over and only there. -/
theorem assignedAt_iff {file : Path} {first : Nat} (mem : token ∈ tokenize source)
    (isName : token.kind = .name) (column : token.place.column = 0)
    (ordinary : isKeyword token.text = false) :
    (AssignedAt file source first token ↔ EqualsFirst (source.dropBytes token.stop)) ∧
      (Assigns (source.dropBytes token.stop) ∧ ¬ AssignedAt file source first token ↔
        ∃ c rest, (source.dropBytes token.stop).dropWhile isBlank = '=' :: c :: rest ∧
          c ≠ '=' ∧ isOperatorChar c = true) ∧
      (AssignedAt file source first token ∧ ¬ Assigns (source.dropBytes token.stop) ↔
        ∃ c rest, (source.dropBytes token.stop).dropWhile isBlank = c :: rest ∧
          PassedOver c rest ∧ EqualsFirst rest) := by
  have recorded : AssignedAt file source first token ↔ EqualsFirst (source.dropBytes token.stop) :=
    assignedAt_iff_equalsFirst mem isName column ordinary
  rw [recorded]
  exact ⟨Iff.rfl, assigns_and_not_equalsFirst_iff, equalsFirst_and_not_assigns_iff⟩

/-- The equals sign in front of a negative number is glued to the minus sign. -/
theorem assignedAt_iff_minus :
    (⟨.name, .start, "x".toList⟩ : Token) ∈ tokenize "x =-1\n".toList ∧
      isKeyword "x".toList = false ∧ Assigns (Text.dropBytes 1 "x =-1\n".toList) ∧
      ¬ AssignedAt ⟨"/r/a.py".toList⟩ "x =-1\n".toList 0 ⟨.name, .start, "x".toList⟩ := by
  have mem : (⟨.name, .start, "x".toList⟩ : Token) ∈ tokenize "x =-1\n".toList := by decide +kernel
  have ordinary : isKeyword "x".toList = false := by decide
  have glued : ∃ c rest, (Text.dropBytes 1 "x =-1\n".toList).dropWhile isBlank = '=' :: c :: rest ∧
      c ≠ '=' ∧ isOperatorChar c = true :=
    ⟨'-', "1\n".toList, by decide, by decide, by decide⟩
  obtain ⟨assigns, missed⟩ := (assignedAt_iff mem rfl rfl ordinary).2.1.mpr glued
  exact ⟨mem, ordinary, assigns, missed⟩

/-- One assignment is not recorded, and a name that is only subscripted is. -/
theorem declarations_minus_subscript :
    ((⟨.name, .start, "x".toList⟩ : Token) ∈ tokenize "x =-1\n".toList ∧
        Assigns (Text.dropBytes 1 "x =-1\n".toList) ∧
        ofSource ⟨"/r/a.py".toList⟩ "x =-1\n".toList 0 = []) ∧
      (⟨.name, .start, "a".toList⟩ : Token) ∈ tokenize "a[:] = b\n".toList ∧
        ¬ Assigns (Text.dropBytes 1 "a[:] = b\n".toList) ∧
        ofSource ⟨"/r/a.py".toList⟩ "a[:] = b\n".toList 0 =
          [⟨"a".toList, .assignment, ⟨"/r/a.py".toList⟩, 1, 0, 1, none⟩] := by
  refine ⟨⟨by decide +kernel, ⟨"-1\n".toList, by decide, by decide⟩, by decide +kernel⟩,
    by decide +kernel, ?_, by decide +kernel⟩
  rintro ⟨rest, behind, -⟩
  have subscript : (Text.dropBytes 1 "a[:] = b\n".toList).dropWhile isBlank = "[:] = b\n".toList := by
    decide
  rw [subscript] at behind
  exact absurd (List.cons.inj behind).1 (by decide)

end Declaration

end Hyperlisting
