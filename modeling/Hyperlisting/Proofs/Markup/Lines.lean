import Mathlib.Data.List.Basic
import Hyperlisting.Proofs.Markup.Stripping
import Hyperlisting.Proofs.Text

/-! The lines of a numbered document. They are the lines of the text that the document shows, each
labelled in front, and the labels are all that reads as a label. -/

namespace Hyperlisting

namespace Text

/-- One line for every line end and one for text after the last, but at least one. -/
def lineCount (s : Text) : Nat :=
  max 1 (s.count '\n' + if s.getLast?.any (· != '\n') then 1 else 0)

theorem lineCount_newline_cons {s : Text} (more : s ≠ []) :
    lineCount ('\n' :: s) = lineCount s + 1 := by
  obtain ⟨c, s, rfl⟩ := List.exists_cons_of_ne_nil more
  unfold lineCount
  rw [List.getLast?_cons_cons, List.count_cons_self]
  cases last : (c :: s).getLast? with
  | none => simp at last
  | some d =>
    by_cases newline : d = '\n'
    · subst newline
      have counted : 0 < (c :: s).count '\n' :=
        List.count_pos_iff.mpr (List.mem_of_getLast? last)
      simp only [Option.any_some, bne_self_eq_false, Bool.false_eq_true, if_false]
      omega
    · simp only [Option.any_some, bne_iff_ne, ne_eq, newline, not_false_eq_true, if_true]
      omega

theorem lineCount_cons_of_ne {c : Char} (other : c ≠ '\n') (s : Text) :
    lineCount (c :: s) = lineCount s := by
  unfold lineCount
  rw [List.count_cons_of_ne other]
  cases s with
  | nil => simp [other]
  | cons d s => rw [List.getLast?_cons_cons]

theorem one_le_lineCount (s : Text) : 1 ≤ lineCount s := Nat.le_max_left ..

/-- The line of a character is one of the lines. -/
theorem count_lt_lineCount (before : Text) (c : Char) (rest : Text) :
    before.count '\n' < lineCount (before ++ c :: rest) := by
  induction before with
  | nil => exact one_le_lineCount _
  | cons d before ih =>
    have more : before ++ c :: rest ≠ [] := by simp
    by_cases newline : d = '\n'
    · rw [newline, List.cons_append, lineCount_newline_cons more, List.count_cons_self]
      exact Nat.succ_lt_succ ih
    · rw [List.cons_append, lineCount_cons_of_ne newline, List.count_cons_of_ne newline]
      exact ih

theorem length_splitOn (s : Text) : (s.splitOn '\n').length = s.count '\n' + 1 := by
  induction s with
  | nil => rfl
  | cons c s ih =>
    rw [List.splitOn_cons_eq_if_modifyHead]
    by_cases newline : c = '\n'
    · simp [newline, ih]
    · simp [newline, ih]

end Text

namespace Markup

/-- A printed document is cut at its line ends where its pieces are. -/
theorem splitOn_print {pieces : List Piece} (plain : ∀ piece ∈ pieces, piece.Plain) :
    (print pieces).splitOn '\n' = (pieces.splitOnP Piece.endsLine).map print := by
  induction pieces with
  | nil => rfl
  | cons piece pieces ih =>
    obtain ⟨here, later⟩ := List.forall_mem_cons.mp plain
    have rest := ih later
    rw [print_cons, List.splitOnP_cons_eq_if_modifyHead]
    cases ends : piece.endsLine with
    | true =>
      rw [endsLine_iff.mp ends, Piece.print, escapeChar_newline, List.singleton_append,
        List.splitOn_cons_eq_if_modifyHead, rest]
      simp
    | false =>
      rw [splitOn_append (here.newline_not_mem ends), rest]
      cases pieces.splitOnP Piece.endsLine <;> simp

theorem splitOn_characters (pieces : List Piece) :
    (characters pieces).splitOn '\n' = (pieces.splitOnP Piece.endsLine).map characters := by
  induction pieces with
  | nil => rfl
  | cons piece pieces ih =>
    rw [List.splitOnP_cons_eq_if_modifyHead]
    cases shown : piece.character? with
    | none =>
      have within : piece.endsLine = false := by
        cases piece with
        | character c => cases shown
        | opening element => rfl
        | closing element => rfl
      simp only [characters, List.filterMap_cons, shown, within, Bool.false_eq_true, if_false]
        at ih ⊢
      rw [ih]
      cases pieces.splitOnP Piece.endsLine <;> simp [characters, shown]
    | some c =>
      obtain rfl := Piece.eq_character shown
      have cons : characters (.character c :: pieces) = c :: characters pieces := rfl
      rw [cons, List.splitOn_cons_eq_if_modifyHead, ih]
      by_cases newline : c = '\n'
      · simp [newline, Piece.endsLine, characters]
      · cases pieces.splitOnP Piece.endsLine <;>
          simp [newline, Piece.endsLine, characters, Piece.character?]

theorem plainText_print {pieces : List Piece} (alike : Bool)
    (plain : ∀ piece ∈ pieces, piece.Plain)
    (unlabelled : ∀ piece ∈ pieces, piece.All Element.Unlabelled) :
    plainText alike (print pieces) = characters pieces := by
  have unchanged : replaceMatches (labelLength alike) [] (print pieces) = print pieces := by
    induction pieces with
    | nil => rfl
    | cons piece pieces ih =>
      obtain ⟨here, later⟩ := List.forall_mem_cons.mp plain
      obtain ⟨bare, laterBare⟩ := List.forall_mem_cons.mp unlabelled
      rw [print_cons, replaceMatches_labelLength_print alike here bare, ih later laterBare]
  simp only [plainText]
  rw [unchanged, replaceMatches_tagLength plain, replace_escape]

theorem plainText_lineLabel_append (alike : Bool) (number : Nat) (line : Text) :
    plainText alike (lineLabel number ++ line) = plainText alike line := by
  simp only [plainText]
  rw [← print_labelPieces, replaceMatches_labelPieces]

theorem lineCount_characters_cons {piece : Piece} (within : piece.endsLine = false)
    (pieces : List Piece) :
    (characters (piece :: pieces)).lineCount = (characters pieces).lineCount := by
  cases shown : piece.character? with
  | none => simp [characters, shown]
  | some c =>
    obtain rfl := Piece.eq_character shown
    exact Text.lineCount_cons_of_ne (by simpa [Piece.endsLine] using within) _

/-- A line is labelled exactly when the text that is shown has so many lines. -/
theorem labelLines_splitOn {pieces : List Piece} (plain : ∀ piece ∈ pieces, piece.Plain)
    (number : Nat) {line : Text} {lines : List Text}
    (split : (print pieces).splitOn '\n' = line :: lines) :
    labelLines (number + 2) lines = lines.mapIdx fun k line =>
      if k + 1 < (characters pieces).lineCount then lineLabel (number + 2 + k) ++ line
      else line := by
  induction pieces generalizing number line lines with
  | nil =>
    obtain ⟨rfl, rfl⟩ : line = [] ∧ lines = [] := by simpa using split.symm
    rfl
  | cons piece pieces ih =>
    obtain ⟨here, later⟩ := List.forall_mem_cons.mp plain
    obtain ⟨next, rest, splitRest, ⟨ends, rfl, rfl⟩ | ⟨rfl, rfl, rfl⟩⟩ :=
      splitOn_print_cons here split
    · rw [lineCount_characters_cons ends]
      exact ih later number splitRest
    · have more := more_iff later splitRest
      have labelled := ih later (number + 1) splitRest
      have chars : characters (.character '\n' :: pieces) = '\n' :: characters pieces := rfl
      rw [labelLines_cons, labelled, chars, List.mapIdx_cons]
      by_cases ended : characters pieces = []
      · have none := mt more.mp (not_not_intro ended)
        simp [none, ended, Text.lineCount]
      · have count := Text.lineCount_newline_cons ended
        have positive := Text.one_le_lineCount (characters pieces)
        have first : 0 + 1 < Text.lineCount ('\n' :: characters pieces) := by omega
        rw [if_pos (.inr (more.mpr ended)), if_pos first, count]
        simp only [Nat.add_lt_add_iff_right, Nat.add_zero]
        refine congrArg (List.cons _) (congrArg (List.mapIdx · rest) ?_)
        funext k line
        rw [show number + 1 + 2 + k = number + 2 + (k + 1) by omega]

theorem newline_not_mem_lineLabel (number : Nat) : '\n' ∉ lineLabel number := by
  rw [← print_labelPieces]
  intro mem
  obtain ⟨piece, pieceMem, mem⟩ := List.mem_flatMap.mp mem
  refine (labelPieces_plain pieceMem).newline_not_mem ?_ mem
  simp only [labelPieces, List.cons_append, List.mem_cons, List.mem_append,
    List.mem_map] at pieceMem
  rcases pieceMem with rfl | ⟨c, digit, rfl⟩ | rfl | rfl | none
  · rfl
  · rw [Piece.endsLine, beq_eq_false_iff_ne]
    rintro rfl
    exact absurd (Text.isDigit_of_mem_ofNat digit) (by decide)
  · rfl
  · rfl
  · cases none

theorem splitOn_numberLines {pieces : List Piece} (plain : ∀ piece ∈ pieces, piece.Plain) :
    (numberLines (print pieces)).splitOn '\n' =
      ((print pieces).splitOn '\n').mapIdx fun k line =>
        if k < (characters pieces).lineCount then lineLabel (k + 1) ++ line else line := by
  obtain ⟨line, lines, split⟩ := List.exists_cons_of_ne_nil
    (List.splitOn_ne_nil '\n' (print pieces))
  have positive := Text.one_le_lineCount (characters pieces)
  have labelled : labelLines 1 (line :: lines) = (line :: lines).mapIdx fun k line =>
      if k < (characters pieces).lineCount then lineLabel (k + 1) ++ line else line := by
    rw [labelLines_cons, labelLines_splitOn plain 0 split, List.mapIdx_cons,
      if_pos (.inl rfl), if_pos (by omega)]
    refine congrArg (List.cons _) (congrArg (List.mapIdx · lines) ?_)
    funext k line
    rw [show 0 + 2 + k = k + 1 + 1 by omega]
  rw [numberLines, split, labelled]
  apply List.splitOn_intercalate
  · intro numbered mem
    obtain ⟨k, bound, rfl⟩ := List.mem_mapIdx.mp mem
    have free : '\n' ∉ (line :: lines)[k] := by
      intro newline
      have member : (line :: lines)[k] ∈ (print pieces).splitOnP (· == '\n') := by
        rw [← List.splitOn_eq_splitOnP, split]
        exact List.getElem_mem _
      exact absurd (Lists.mem_of_mem_splitOnP member _ newline).2 (by decide)
    split
    · exact List.not_mem_append (newline_not_mem_lineLabel _) free
    · exact free
  · simp

/-- The label that a text starts with. -/
def label? (alike : Bool) (text : Text) : Option Text :=
  (afterLabel? alike text).map fun rest => text.take (text.length - rest.length)

/-- All labels that are found in a document, from left to right. -/
def labels (alike : Bool) : Text → List Text
  | [] => []
  | c :: rest => (label? alike (c :: rest)).toList ++ labels alike rest

variable {alike : Bool}

theorem labels_cons_of_not_labelStart {c : Char} {rest : Text}
    (other : ¬ labelStart <+: c :: rest) : labels alike (c :: rest) = labels alike rest := by
  have none : labelStart.isPrefixOf? (c :: rest) = none := by
    rw [← Option.not_isSome_iff_eq_none, List.isSome_isPrefixOf?_eq_isPrefixOf]
    simpa using other
  simp [labels, label?, afterLabel?, none]

theorem labels_append_of_free {kept : Text} (free : ∀ c ∈ kept, c ≠ '<') (rest : Text) :
    labels alike (kept ++ rest) = labels alike rest := by
  induction kept with
  | nil => rfl
  | cons c kept ih =>
    obtain ⟨here, later⟩ := List.forall_mem_cons.mp free
    rw [List.cons_append, labels_cons_of_not_labelStart (not_labelStart_of_ne here _), ih later]

theorem labels_print_append {piece : Piece} (plain : piece.Plain)
    (unlabelled : piece.All Element.Unlabelled) (rest : Text) :
    labels alike (piece.print ++ rest) = labels alike rest := by
  obtain ⟨first, tail, equal, free, start⟩ := plain.not_labelStart unlabelled rest
  rw [equal, List.cons_append, labels_cons_of_not_labelStart start, labels_append_of_free free]

/-- Behind its first character a label has one more `<`, which starts its closing tag. -/
theorem labels_lineLabel_append (number : Nat) (rest : Text) :
    labels alike (lineLabel number ++ rest) = lineLabel number :: labels alike rest := by
  have found : label? alike (lineLabel number ++ rest) = some (lineLabel number) := by
    rw [label?, afterLabel?_lineLabel]
    simp
  have digits : ∀ c ∈ Text.ofNat number, c ≠ '<' := by
    rintro c mem rfl
    exact absurd (Text.isDigit_of_mem_ofNat mem) (by decide)
  have label : lineLabel number = '<' :: ("span class=\"lineno\" id=\"line-".toList ++
      (Text.ofNat number ++ ("\">".toList ++ (Text.ofNat number ++
        ('<' :: "/span> ".toList))))) := by
    unfold lineLabel lineId
    generalize Text.ofNat number = shown
    simp
  have closing : ¬ labelStart <+: '<' :: ("/span> ".toList ++ rest) := by
    unfold labelStart
    simp
  have inner : labels alike ("span class=\"lineno\" id=\"line-".toList ++
      (Text.ofNat number ++ ("\">".toList ++ (Text.ofNat number ++
        ('<' :: ("/span> ".toList ++ rest)))))) = labels alike rest := by
    rw [labels_append_of_free (by simp), labels_append_of_free digits,
      labels_append_of_free (by simp), labels_append_of_free digits,
      labels_cons_of_not_labelStart closing, labels_append_of_free (by simp)]
  have step : labels alike (lineLabel number ++ rest) =
      (label? alike (lineLabel number ++ rest)).toList ++ labels alike rest := by
    rw [← inner, label]
    simp only [List.cons_append, List.append_assoc]
    rfl
  rw [step, found]
  rfl

theorem labels_numberPieces {pieces : List Piece} (plain : ∀ piece ∈ pieces, piece.Plain)
    (unlabelled : ∀ piece ∈ pieces, piece.All Element.Unlabelled) (number : Nat) :
    labels alike (print (numberPieces number pieces)) =
      (List.range' (number + 1) ((characters pieces).lineCount - 1)).map lineLabel := by
  induction pieces generalizing number with
  | nil => rfl
  | cons piece pieces ih =>
    obtain ⟨here, later⟩ := List.forall_mem_cons.mp plain
    obtain ⟨bare, laterBare⟩ := List.forall_mem_cons.mp unlabelled
    cases ends : piece.endsLine with
    | false =>
      have same := lineCount_characters_cons ends pieces
      rw [numberPieces, ends, if_neg (by simp), print_cons, labels_print_append here bare,
        ih later laterBare, same]
    | true =>
      have chars : characters (.character '\n' :: pieces) = '\n' :: characters pieces := rfl
      rw [numberPieces, if_pos ends, print_cons, print_append, labels_print_append here bare,
        endsLine_iff.mp ends, chars]
      by_cases ended : characters pieces = []
      · rw [if_pos ended, print_nil, List.nil_append, ih later laterBare, ended]
        rfl
      · have positive := Text.one_le_lineCount (characters pieces)
        rw [if_neg ended, print_labelPieces, labels_lineLabel_append, ih later laterBare,
          Text.lineCount_newline_cons ended]
        have counted : (characters pieces).lineCount + 1 - 1 =
            (characters pieces).lineCount - 1 + 1 := by omega
        rw [counted, List.range'_succ, List.map_cons]

theorem labels_numberLines {pieces : List Piece} (alike : Bool)
    (plain : ∀ piece ∈ pieces, piece.Plain)
    (unlabelled : ∀ piece ∈ pieces, piece.All Element.Unlabelled) :
    labels alike (numberLines (print pieces)) =
      (List.range' 1 (characters pieces).lineCount).map lineLabel := by
  have positive := Text.one_le_lineCount (characters pieces)
  have counted : (characters pieces).lineCount = (characters pieces).lineCount - 1 + 1 := by omega
  rw [numberLines_print plain, print_append, print_labelPieces, labels_lineLabel_append,
    labels_numberPieces plain unlabelled, counted, List.range'_succ, List.map_cons]
  rfl

end Markup
end Hyperlisting
