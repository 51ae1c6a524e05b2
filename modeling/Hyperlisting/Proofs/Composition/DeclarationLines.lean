import Hyperlisting.Proofs.Composition.Lines
import Hyperlisting.Proofs.Declaration

/-! Where a declaration stands in a body. Its line was counted in the source, the labels are counted
in the markup; the labels before the place of the declaration go up to its line all the same. -/

namespace Hyperlisting

open Markup

namespace Markup

variable {pieces after : List Piece} {first second : Text} {alike : Bool}

/-- Pieces with a label behind every line end, where the line before has the number. -/
def labelEach (number : Nat) : List Piece → List Piece
  | [] => []
  | piece :: rest =>
    if piece.endsLine then piece :: (labelPieces (number + 1) ++ labelEach (number + 1) rest)
    else piece :: labelEach number rest

theorem count_characters_cons (piece : Piece) (pieces : List Piece) :
    (characters (piece :: pieces)).count '\n' =
      (characters pieces).count '\n' + if piece.endsLine then 1 else 0 := by
  cases shown : piece.character? with
  | none =>
    have hidden : characters (piece :: pieces) = characters pieces :=
      List.filterMap_cons_none shown
    have within : piece.endsLine = false := by
      rw [Bool.eq_false_iff, ne_eq, endsLine_iff]
      rintro rfl
      cases shown
    rw [hidden, within]
    rfl
  | some c =>
    obtain rfl := Piece.eq_character shown
    have cons : characters (.character c :: pieces) = c :: characters pieces := rfl
    rw [cons, List.count_cons]
    rfl

/-- Before more text every line end has a label behind it. -/
theorem numberPieces_append (more : characters after ≠ []) (number : Nat) (pieces : List Piece) :
    numberPieces number (pieces ++ after) =
      labelEach number pieces ++
        numberPieces (number + (characters pieces).count '\n') after := by
  induction pieces generalizing number with
  | nil => rfl
  | cons piece pieces ih =>
    rw [List.cons_append, numberPieces, labelEach, count_characters_cons]
    cases ends : piece.endsLine with
    | false => simp [ih]
    | true =>
      have follows : characters (pieces ++ after) ≠ [] := by simp [more]
      rw [if_pos rfl, if_pos rfl, if_pos rfl, if_neg follows, ih]
      simp only [List.cons_append, List.append_assoc, Nat.add_assoc, Nat.add_comm 1]

theorem numberPieces_append_of_no_newline (number : Nat) (within : '\n' ∉ characters pieces) :
    numberPieces number (pieces ++ after) = pieces ++ numberPieces number after := by
  induction pieces with
  | nil => rfl
  | cons piece pieces ih =>
    have ends : piece.endsLine = false := by
      rw [Bool.eq_false_iff, ne_eq, endsLine_iff]
      rintro rfl
      exact within List.mem_cons_self
    have later : '\n' ∉ characters pieces := by
      rw [← List.count_eq_zero, count_characters_cons] at within
      exact List.count_eq_zero.mp (by omega)
    rw [List.cons_append, numberPieces, ends, if_neg Bool.false_ne_true, ih later,
      List.cons_append]

theorem labels_print_of_unlabelled (plain : ∀ piece ∈ pieces, piece.Plain)
    (unlabelled : ∀ piece ∈ pieces, piece.All Element.Unlabelled) (rest : Text) :
    labels alike (print pieces ++ rest) = labels alike rest := by
  induction pieces with
  | nil => rfl
  | cons piece pieces ih =>
    obtain ⟨here, later⟩ := List.forall_mem_cons.mp plain
    obtain ⟨bare, laterBare⟩ := List.forall_mem_cons.mp unlabelled
    rw [print_cons, List.append_assoc, labels_print_append here bare, ih later laterBare]

theorem labels_labelEach (plain : ∀ piece ∈ pieces, piece.Plain)
    (unlabelled : ∀ piece ∈ pieces, piece.All Element.Unlabelled) (number : Nat) (rest : Text) :
    labels alike (print (labelEach number pieces) ++ rest) =
      (List.range' (number + 1) ((characters pieces).count '\n')).map lineLabel ++
        labels alike rest := by
  induction pieces generalizing number with
  | nil => rfl
  | cons piece pieces ih =>
    obtain ⟨here, later⟩ := List.forall_mem_cons.mp plain
    obtain ⟨bare, laterBare⟩ := List.forall_mem_cons.mp unlabelled
    rw [labelEach, count_characters_cons]
    cases ends : piece.endsLine with
    | false =>
      rw [if_neg Bool.false_ne_true, if_neg Bool.false_ne_true, print_cons, List.append_assoc,
        labels_print_append here bare, ih later laterBare]
      rfl
    | true =>
      rw [if_pos rfl, if_pos rfl, print_cons, print_append, List.append_assoc, List.append_assoc,
        labels_print_append here bare, print_labelPieces, labels_lineLabel_append,
        ih later laterBare, List.range'_succ]
      rfl

theorem replaceMatches_labelEach (plain : ∀ piece ∈ pieces, piece.Plain)
    (unlabelled : ∀ piece ∈ pieces, piece.All Element.Unlabelled) (number : Nat) :
    replaceMatches (labelLength alike) [] (print (labelEach number pieces)) = print pieces := by
  induction pieces generalizing number with
  | nil => rfl
  | cons piece pieces ih =>
    obtain ⟨here, later⟩ := List.forall_mem_cons.mp plain
    obtain ⟨bare, laterBare⟩ := List.forall_mem_cons.mp unlabelled
    rw [labelEach, print_cons]
    split
    · rw [print_cons, print_append, replaceMatches_labelLength_print alike here bare,
        replaceMatches_labelPieces, ih later laterBare]
    · rw [print_cons, replaceMatches_labelLength_print alike here bare, ih later laterBare]

theorem plainText_labelEach (plain : ∀ piece ∈ pieces, piece.Plain)
    (unlabelled : ∀ piece ∈ pieces, piece.All Element.Unlabelled) (number : Nat) :
    plainText alike (print (labelEach number pieces)) = characters pieces := by
  simp only [plainText]
  rw [replaceMatches_labelEach plain unlabelled, replaceMatches_tagLength plain, replace_escape]

theorem exists_of_characters_eq_append (same : characters pieces = first ++ second) :
    ∃ before after, pieces = before ++ after ∧ characters before = first ∧
      characters after = second :=
  List.filterMap_eq_append_iff.mp same

end Markup

variable {source : Text} {runs : List Run} {nesting : Nesting} {c : Composition} {file : Path}
  {first : Nat} {declaration : Declaration}

/-- The labels before the place where a declaration's name is shown are those of the lines up to the
declaration's, so the last of them has its line. No label lies within the name, and the body has one
label for each line. -/
theorem labels_before_declaration (alike : Bool)
    (declared : declaration ∈ Declaration.ofSource file source first)
    (composed : Composition.compose source runs nesting = .ok c) (page : Path) :
    labels alike (c.body source page) = (List.range' 1 source.lineCount).map lineLabel ∧
      ∃ before shown rest, c.body source page = before ++ (shown ++ rest) ∧
        plainText alike before = source.takeBytes declaration.start ∧
        plainText alike shown = source.slice declaration.start declaration.stop ∧
        labels alike before = (List.range' 1 declaration.line).map lineLabel ∧
        labels alike (before ++ shown) = (List.range' 1 declaration.line).map lineLabel := by
  refine ⟨(c.splitOn_body alike composed page).2.1, ?_⟩
  obtain ⟨isName, ahead, behind, split, start, stop, line⟩ :=
    Declaration.exists_place_of_mem_ofSource declared
  have plain := c.pieces_plain source page
  have unlabelled : ∀ piece ∈ c.pieces source page, piece.All Element.Unlabelled :=
    Composition.pieces_all (c.element_unlabelled page)
  have whole : characters (c.pieces source page) = ahead ++ (declaration.name ++ behind) :=
    (Composition.characters_of_compose composed page).trans split
  obtain ⟨front, others, pieces, rfl, shownOthers⟩ := exists_of_characters_eq_append whole
  obtain ⟨named, back, rfl, shownName, _⟩ := exists_of_characters_eq_append shownOthers
  rw [pieces] at plain unlabelled
  obtain ⟨plainFront, plainOthers⟩ := List.forall_mem_append.mp plain
  obtain ⟨bareFront, bareOthers⟩ := List.forall_mem_append.mp unlabelled
  obtain ⟨plainNamed, _⟩ := List.forall_mem_append.mp plainOthers
  obtain ⟨bareNamed, _⟩ := List.forall_mem_append.mp bareOthers
  have more : characters (named ++ back) ≠ [] := by
    simp [shownName, isName.ne_nil]
  have within : '\n' ∉ characters named := by
    rw [shownName]
    exact fun mem => (isName.ne_of_mem mem).2.2.1 rfl
  have body : c.body source page = lineLabel 1 ++ print (labelEach 1 front) ++
      (print named ++ print (numberPieces (1 + (characters front).count '\n') back)) := by
    rw [Composition.body, Composition.markup, pieces, numberLines_print plain,
      numberPieces_append more, numberPieces_append_of_no_newline _ within]
    simp only [print_append, print_labelPieces, List.append_assoc]
  have labelled (rest : Text) : labels alike (lineLabel 1 ++ print (labelEach 1 front) ++ rest) =
      (List.range' 1 declaration.line).map lineLabel ++ labels alike rest := by
    rw [List.append_assoc, labels_lineLabel_append, labels_labelEach plainFront bareFront, line,
      List.range'_succ]
    rfl
  refine ⟨_, _, _, body, ?_, ?_, ?_, ?_⟩
  · rw [plainText_lineLabel_append, plainText_labelEach plainFront bareFront, split, start,
      Text.takeBytes_append]
  · rw [plainText_print alike plainNamed bareNamed, shownName, split, start, stop,
      Text.slice_append]
  · have none := labelled []
    rwa [List.append_nil, labels, List.append_nil] at none
  · have unread : labels alike (print named ++ []) = labels alike [] :=
      labels_print_of_unlabelled plainNamed bareNamed []
    rw [List.append_nil] at unread
    rw [labelled, unread, labels, List.append_nil]

/-- A name on another line than its keyword, with one highlight over both. -/
theorem labels_before_declaration_splitLine :
    ∃ declaration ∈ Declaration.ofSource ⟨"/r/a.py".toList⟩ "def\nf".toList 0,
      declaration.line = 2 ∧
      ∃ c, Composition.compose "def\nf".toList [⟨0, 5, .style "k".toList, none⟩] .linksInnermost =
          .ok c ∧
        ∃ before shown rest,
          c.body "def\nf".toList ⟨"/out/a.py.html".toList⟩ = before ++ (shown ++ rest) ∧
          plainText true shown = "f".toList ∧ labels true before = [lineLabel 1, lineLabel 2] := by
  have composed : Composition.compose "def\nf".toList [⟨0, 5, .style "k".toList, none⟩]
      .linksInnermost = .ok { runs := #[⟨0, 5, .style "k".toList, none⟩]
                              spans := [⟨0, 5, [0], []⟩]
                              trailing := [] } := by
    cbv
  have declared : (⟨"f".toList, .function, ⟨"/r/a.py".toList⟩, 2, 4, 5, none⟩ : Declaration) ∈
      Declaration.ofSource ⟨"/r/a.py".toList⟩ "def\nf".toList 0 := by
    decide +kernel
  obtain ⟨_, before, shown, rest, body, _, name, found, _⟩ :=
    labels_before_declaration true declared composed ⟨"/out/a.py.html".toList⟩
  exact ⟨_, declared, rfl, _, composed, before, shown, rest, body, name, found⟩

end Hyperlisting
