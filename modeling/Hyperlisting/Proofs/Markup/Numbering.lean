import Hyperlisting.Markup.LineNumbers
import Hyperlisting.Proofs.Markup.Reading
import Hyperlisting.Proofs.Text

/-! Numbering the lines of printed pieces puts the pieces of a label at the start and behind every
line end that more text follows, and changes nothing else. -/

namespace Hyperlisting.Markup

def Piece.endsLine : Piece → Bool
  | character c => c == '\n'
  | _ => false

def lineElement (number : Nat) : Element :=
  ⟨"span".toList, [⟨"class".toList, "lineno".toList⟩, ⟨"id".toList, lineId number⟩]⟩

def labelPieces (number : Nat) : List Piece :=
  .opening (lineElement number) :: (Text.ofNat number).map .character ++
    [.closing (lineElement number), .character ' ']

/-- Labels behind the line ends that more text follows, where the line before has the number. -/
def numberPieces (number : Nat) : List Piece → List Piece
  | [] => []
  | piece :: rest =>
    if piece.endsLine then
      piece :: ((if characters rest = [] then [] else labelPieces (number + 1)) ++
        numberPieces (number + 1) rest)
    else piece :: numberPieces number rest

theorem escapeChar_of_isDigit {c : Char} (digit : c.isDigit = true) :
    escapeChar c = [c] ∧ escapeAttributeChar c = [c] := by
  have others : c ≠ '&' ∧ c ≠ '<' ∧ c ≠ '>' ∧ c ≠ '"' ∧ c ≠ '\'' ∧ c ≠ '\n' ∧ c ≠ '\r' := by
    refine ⟨?_, ?_, ?_, ?_, ?_, ?_, ?_⟩ <;> rintro rfl <;> exact absurd digit (by decide)
  obtain ⟨ampersand, less, greater, quote, apostrophe, newline, carriage⟩ := others
  have same : escapeChar c = [c] := by
    rcases escapeChar_cases c with ⟨rfl, _⟩ | ⟨rfl, _⟩ | ⟨rfl, _⟩ | ⟨rfl, _⟩ | ⟨rfl, _⟩ | ⟨_, same⟩
    all_goals first | contradiction | exact same
  refine ⟨same, ?_⟩
  rw [← same]
  unfold escapeAttributeChar
  split <;> simp_all

theorem flatMap_eq_self {s : Text} {code : Char → Text} (kept : ∀ c ∈ s, code c = [c]) :
    s.flatMap code = s := by
  induction s with
  | nil => rfl
  | cons c s ih =>
    obtain ⟨here, later⟩ := List.forall_mem_cons.mp kept
    rw [List.flatMap_cons, here, ih later]
    rfl

theorem escape_ofNat (number : Nat) : escape (Text.ofNat number) = Text.ofNat number :=
  flatMap_eq_self fun _ mem => (escapeChar_of_isDigit (Text.isDigit_of_mem_ofNat mem)).1

theorem escapeAttribute_lineId (number : Nat) :
    escapeAttribute (lineId number) = lineId number := by
  have digits : escapeAttribute (Text.ofNat number) = Text.ofNat number :=
    flatMap_eq_self fun _ mem => (escapeChar_of_isDigit (Text.isDigit_of_mem_ofNat mem)).2
  have word : escapeAttribute "line-".toList = "line-".toList := by decide
  unfold lineId
  rw [escapeAttribute_append, word, digits]

theorem openingTag_lineElement (number : Nat) :
    (lineElement number).openingTag =
      "<span class=\"lineno\" id=\"".toList ++ lineId number ++ "\">".toList := by
  have escaped := escapeAttribute_lineId number
  have word : escapeAttribute "lineno".toList = "lineno".toList := by decide
  unfold lineElement Element.openingTag
  generalize lineId number = id at escaped
  simp only [List.flatMap_cons, List.flatMap_nil, Attribute.print, escaped, word]
  simp

theorem print_labelPieces (number : Nat) : print (labelPieces number) = lineLabel number := by
  have closing : (lineElement number).closingTag = "</span>".toList := rfl
  rw [labelPieces, List.cons_append, print_cons, print_append, print_map_character, escape_ofNat,
    print_cons, print_cons, print_nil]
  simp only [Piece.print]
  rw [openingTag_lineElement, closing, escapeChar_blank]
  unfold lineLabel
  -- kept closed, the number and the name of the line would be evaluated
  generalize Text.ofNat number = digits
  generalize lineId number = id
  simp

theorem lineElement_plain (number : Nat) : (lineElement number).Plain := by
  unfold lineElement
  constructor <;> simp

theorem labelPieces_plain {number : Nat} {piece : Piece} (mem : piece ∈ labelPieces number) :
    piece.Plain := by
  simp only [labelPieces, List.cons_append, List.mem_cons, List.mem_append, List.mem_map] at mem
  rcases mem with rfl | ⟨c, _, rfl⟩ | rfl | rfl | mem
  · exact lineElement_plain number
  · trivial
  · exact lineElement_plain number
  · trivial
  · cases mem

theorem numberPieces_plain {number : Nat} {pieces : List Piece}
    (plain : ∀ piece ∈ pieces, piece.Plain) : ∀ piece ∈ numberPieces number pieces, piece.Plain := by
  induction pieces generalizing number with
  | nil => exact plain
  | cons first rest ih =>
    obtain ⟨here, later⟩ := List.forall_mem_cons.mp plain
    unfold numberPieces
    split
    · refine List.forall_mem_cons.mpr ⟨here, List.forall_mem_append.mpr ⟨?_, ih later⟩⟩
      split
      · intro piece mem
        cases mem
      · intro piece mem
        exact labelPieces_plain mem
    · exact List.forall_mem_cons.mpr ⟨here, ih later⟩

theorem hasTextFrom_cons (inside : Bool) (c : Char) (rest : Text) :
    hasTextFrom inside (c :: rest) =
      if c = '<' then hasTextFrom true rest
      else if c = '>' then hasTextFrom false rest
      else !inside || hasTextFrom inside rest := by
  rw [hasTextFrom.eq_def]
  split <;> simp_all

theorem hasTextFrom_inside {inside : Text} (rest : Text) (free : ∀ c ∈ inside, c ≠ '<' ∧ c ≠ '>') :
    hasTextFrom true (inside ++ '>' :: rest) = hasText rest := by
  induction inside with
  | nil => rfl
  | cons c inside ih =>
    obtain ⟨⟨less, greater⟩, free⟩ := List.forall_mem_cons.mp free
    simpa [hasTextFrom_cons, less, greater] using ih free

theorem hasText_escapeChar (c : Char) (rest : Text) : hasText (escapeChar c ++ rest) = true := by
  rcases escapeChar_cases c with ⟨_, equal⟩ | ⟨_, equal⟩ | ⟨_, equal⟩ | ⟨_, equal⟩ | ⟨_, equal⟩ |
    ⟨⟨_, less, greater, _⟩, equal⟩
  all_goals rw [equal]
  case inr.inr.inr.inr.inr => simp [hasText, hasTextFrom_cons, less, greater]
  all_goals rfl

theorem Piece.Plain.hasText_append {piece : Piece} (plain : piece.Plain) (rest : Text) :
    hasText (piece.print ++ rest) = (piece.character?.isSome || hasText rest) := by
  cases shown : piece.character? with
  | none =>
    obtain ⟨inside, tag, free, _⟩ := plain.print_eq_tag shown
    have left := hasTextFrom_inside rest free
    rw [tag]
    simpa [hasText, hasTextFrom_cons] using left
  | some c =>
    obtain rfl := Piece.eq_character shown
    rw [print, hasText_escapeChar, Option.isSome_some, Bool.true_or]

theorem hasText_print {pieces : List Piece} (plain : ∀ piece ∈ pieces, piece.Plain) :
    hasText (print pieces) = true ↔ characters pieces ≠ [] := by
  induction pieces with
  | nil => simp [hasText, hasTextFrom, characters]
  | cons piece pieces ih =>
    obtain ⟨here, later⟩ := List.forall_mem_cons.mp plain
    rw [print_cons, here.hasText_append, Bool.or_eq_true, ih later]
    cases piece <;> simp [characters, Piece.character?]

theorem Piece.Plain.newline_not_mem {piece : Piece} (plain : piece.Plain)
    (within : piece.endsLine = false) : '\n' ∉ piece.print := by
  intro mem
  cases shown : piece.character? with
  | none =>
    obtain ⟨inside, tag, _, unbroken⟩ := plain.print_eq_tag shown
    apply unbroken
    simpa [tag] using mem
  | some c =>
    obtain rfl := eq_character shown
    rcases mem_escapeChar mem with known | ⟨rfl, _⟩
    · obtain ⟨_, _, _, _, newline, _⟩ := ne_of_mem_escapeAlphabet known
      exact newline rfl
    · cases within

theorem endsLine_iff {piece : Piece} : piece.endsLine = true ↔ piece = .character '\n' := by
  cases piece <;> simp [Piece.endsLine]

theorem newline_mem_print {pieces : List Piece} (plain : ∀ piece ∈ pieces, piece.Plain)
    (mem : '\n' ∈ print pieces) : '\n' ∈ characters pieces := by
  obtain ⟨piece, pieceMem, mem⟩ := List.mem_flatMap.mp mem
  cases ends : piece.endsLine with
  | false => exact absurd mem ((plain piece pieceMem).newline_not_mem ends)
  | true =>
    rw [endsLine_iff] at ends
    subst ends
    exact List.mem_filterMap.mpr ⟨_, pieceMem, rfl⟩

theorem splitOn_append {s t : Text} (free : '\n' ∉ s) :
    (s ++ t).splitOn '\n' = (t.splitOn '\n').modifyHead (s ++ ·) := by
  induction s with
  | nil => cases split : t.splitOn '\n' <;> simp [split]
  | cons c s ih =>
    obtain ⟨other, free⟩ := not_or.mp (fun h => free (List.mem_cons.mpr h))
    rw [List.cons_append, List.splitOn_cons_eq_if_modifyHead, ih free,
      if_neg (by simpa using Ne.symm other), List.modifyHead_modifyHead]
    rfl

theorem intercalate_modifyHead (s line : Text) (lines : List Text) :
    ['\n'].intercalate ((s ++ line) :: lines) = s ++ ['\n'].intercalate (line :: lines) := by
  cases lines <;> simp

theorem labelLines_cons (number : Nat) (line : Text) (lines : List Text) :
    labelLines number (line :: lines) =
      ((if number = 1 ∨ lines ≠ [] ∨ hasText line = true then lineLabel number else []) ++ line) ::
        labelLines (number + 1) lines := by
  cases lines with
  | nil => by_cases labelled : number = 1 ∨ hasText line = true <;> simp [labelLines, labelled]
  | cons next lines => simp [labelLines]

/-- Some text follows when there is another line or the line itself has text. -/
theorem more_iff {pieces : List Piece} (plain : ∀ piece ∈ pieces, piece.Plain) {line : Text}
    {lines : List Text} (split : (print pieces).splitOn '\n' = line :: lines) :
    (lines ≠ [] ∨ hasText line = true) ↔ characters pieces ≠ [] := by
  have joined : ['\n'].intercalate ((print pieces).splitOn '\n') = print pieces :=
    List.intercalate_splitOn '\n'
  rw [split] at joined
  cases lines with
  | nil =>
    rw [List.intercalate_singleton] at joined
    simp [joined, hasText_print plain]
  | cons next lines =>
    have mem : '\n' ∈ print pieces := by
      rw [← joined]
      simp
    simpa using List.ne_nil_of_mem (newline_mem_print plain mem)

/-- A line end starts a new first line, and any other piece goes in front of the first line. -/
theorem splitOn_print_cons {piece : Piece} {pieces : List Piece} {line : Text} {lines : List Text}
    (plain : piece.Plain) (split : (print (piece :: pieces)).splitOn '\n' = line :: lines) :
    ∃ next rest, (print pieces).splitOn '\n' = next :: rest ∧
      (piece.endsLine = false ∧ line = piece.print ++ next ∧ lines = rest ∨
        piece = .character '\n' ∧ line = [] ∧ lines = next :: rest) := by
  obtain ⟨next, rest, splitRest⟩ := List.exists_cons_of_ne_nil
    (List.splitOn_ne_nil '\n' (print pieces))
  refine ⟨next, rest, splitRest, ?_⟩
  cases ends : piece.endsLine with
  | false =>
    rw [print_cons, splitOn_append (plain.newline_not_mem ends), splitRest] at split
    obtain ⟨rfl, rfl⟩ := List.cons.inj split
    exact .inl ⟨rfl, rfl, rfl⟩
  | true =>
    obtain rfl := endsLine_iff.mp ends
    have broken : ('\n' :: print pieces).splitOn '\n' = [] :: next :: rest := by
      simp [List.splitOn_cons_eq_if_modifyHead, splitRest]
    obtain ⟨rfl, rfl⟩ := List.cons.inj (broken.symm.trans split)
    exact .inr ⟨rfl, rfl, rfl⟩

/-- The lines of some pieces, all but the first labelled, are the lines of the numbered pieces. -/
theorem intercalate_labelLines {pieces : List Piece} (plain : ∀ piece ∈ pieces, piece.Plain)
    (number : Nat) {line : Text} {lines : List Text}
    (split : (print pieces).splitOn '\n' = line :: lines) :
    ['\n'].intercalate (line :: labelLines (number + 2) lines) =
      print (numberPieces (number + 1) pieces) := by
  induction pieces generalizing number line lines with
  | nil =>
    obtain ⟨rfl, rfl⟩ : line = [] ∧ lines = [] := by simpa using split.symm
    rfl
  | cons piece pieces ih =>
    obtain ⟨here, later⟩ := List.forall_mem_cons.mp plain
    obtain ⟨next, rest, splitRest, ⟨ends, rfl, rfl⟩ | ⟨rfl, rfl, rfl⟩⟩ :=
      splitOn_print_cons here split
    · rw [intercalate_modifyHead, ih later number splitRest, numberPieces, ends]
      rfl
    · have labelled := ih later (number + 1) splitRest
      have more := more_iff later splitRest
      rw [labelLines_cons, List.intercalate_cons_cons, intercalate_modifyHead, labelled,
        numberPieces, if_pos (endsLine_iff.mpr rfl)]
      by_cases ended : characters pieces = []
      · have none := mt more.mp (not_not_intro ended)
        simp [none, ended, Piece.print]
      · simp [more.mpr ended, ended, print_labelPieces, Piece.print]

theorem numberLines_print {pieces : List Piece} (plain : ∀ piece ∈ pieces, piece.Plain) :
    numberLines (print pieces) = print (labelPieces 1 ++ numberPieces 1 pieces) := by
  obtain ⟨line, lines, split⟩ := List.exists_cons_of_ne_nil
    (List.splitOn_ne_nil '\n' (print pieces))
  rw [numberLines, split, labelLines_cons, if_pos (.inl rfl), intercalate_modifyHead,
    intercalate_labelLines plain 0 split, print_append, print_labelPieces]

/-- What follows some marks is read from the stack they lead to, and from no other. -/
theorem follow_split {opened : List Text} {first rest : List Mark}
    {shown : List (List Text × Char)} (reads : follow opened (first ++ rest) = some shown) :
    ∃ reached, (∃ shown, follow reached rest = some shown) ∧
      ∀ more, (∃ shown, follow reached more = some shown) →
        ∃ shown, follow opened (first ++ more) = some shown := by
  induction first generalizing opened shown with
  | nil => exact ⟨opened, ⟨shown, reads⟩, fun more found => found⟩
  | cons mark first ih =>
    cases mark with
    | character c =>
      obtain ⟨later, reads, _⟩ := Option.map_eq_some_iff.mp reads
      obtain ⟨reached, found, onward⟩ := ih reads
      refine ⟨reached, found, ?_⟩
      intro more readsMore
      obtain ⟨shown, readsMore⟩ := onward more readsMore
      exact ⟨_, Option.map_eq_some_iff.mpr ⟨shown, readsMore, rfl⟩⟩
    | tag text =>
      simp only [List.cons_append, follow] at reads ⊢
      split at reads
      · rename_i closing
        cases opened with
        | nil => cases reads
        | cons innermost outer =>
          dsimp only at reads ⊢
          split at reads
          · rename_i named
            simpa only [if_pos closing, if_pos named] using ih reads
          · cases reads
      · rename_i opening
        simpa only [if_neg opening] using ih reads

/-- A label is read inside the elements that are open, and leaves them open. -/
theorem follow_labelPieces (number : Nat) (opened : List Text) {rest : List Mark}
    (reads : ∃ shown, follow opened rest = some shown) :
    ∃ shown, follow opened ((labelPieces number).flatMap Piece.marks ++ rest) = some shown := by
  obtain ⟨later, reads⟩ := reads
  have elements : ∀ element ∈ [lineElement number], element.Plain := by
    simpa using lineElement_plain number
  have blank := follow_characters opened [' '] rest
  have closed := follow_closings elements opened ([' '].map Mark.character ++ rest)
  have within := follow_characters ((lineElement number).openingTag :: opened)
    (escape (Text.ofNat number))
    (([lineElement number].map Piece.closing).flatMap Piece.marks ++
      ([' '].map Mark.character ++ rest))
  have marks : (labelPieces number).flatMap Piece.marks ++ rest =
      ([lineElement number].map Piece.opening).flatMap Piece.marks ++
        ((escape (Text.ofNat number)).map Mark.character ++
          (([lineElement number].map Piece.closing).flatMap Piece.marks ++
            ([' '].map Mark.character ++ rest))) := by
    simp [labelPieces, Piece.marks, escape, List.flatMap_map, List.map_flatMap]
  rw [marks, follow_openings elements]
  simp only [List.map_cons, List.map_nil, List.reverse_singleton, List.cons_append,
    List.nil_append] at within closed blank ⊢
  rw [within, closed, blank, reads]
  exact ⟨_, rfl⟩

theorem follow_numberPieces {number : Nat} {opened : List Text} {pieces : List Piece}
    (reads : ∃ shown, follow opened (pieces.flatMap Piece.marks) = some shown) :
    ∃ shown, follow opened ((numberPieces number pieces).flatMap Piece.marks) = some shown := by
  induction pieces generalizing number opened with
  | nil => exact reads
  | cons piece pieces ih =>
    obtain ⟨shown, reads⟩ := reads
    rw [List.flatMap_cons] at reads
    obtain ⟨reached, later, onward⟩ := follow_split reads
    unfold numberPieces
    split
    · rw [List.flatMap_cons, List.flatMap_append]
      apply onward
      split
      · exact ih later
      · exact follow_labelPieces (number + 1) reached (ih later)
    · rw [List.flatMap_cons]
      exact onward _ (ih later)

end Hyperlisting.Markup
