import Hyperlisting.Proofs.Token.Order
import Hyperlisting.Proofs.Token.Start

/-! Tokens of a text that goes on. What follows a line end plays no part for a token that ends
before it or at it, so where no token lies across the end of some lines, the tokens of the whole are
those of the lines and those of the rest. -/

namespace Hyperlisting

namespace Place

/-- A place of a text as a place of that text behind some lines. -/
def behind (lines : Text) (place : Place) : Place where
  offset := lines.byteSize + place.offset
  line := lines.count '\n' + place.line
  column := place.column
  startsLine := place.startsLine
  previous := place.previous.or lines.getLast?

theorem next_behind (lines : Text) (place : Place) (c : Char) :
    (place.behind lines).next c = (place.next c).behind lines := by
  simp only [next, behind, Option.some_or, Place.mk.injEq, and_true]
  refine ⟨Nat.add_assoc .., ?_⟩
  split <;> rfl

theorem after_eq_start_behind {lines : Text} (ends : lines.getLast? = some '\n') :
    after lines = start.behind lines := by
  obtain ⟨front, rfl⟩ := List.getLast?_eq_some_iff.mp ends
  have line := line_after (front ++ ['\n'])
  have offset := offset_after (front ++ ['\n'])
  simp_all [after, behind, start, next]

end Place

namespace Token

open Unicode Scanner

/-- A token of a text as a token of that text behind some lines. -/
def behind (lines : Text) (token : Token) : Token :=
  { token with place := token.place.behind lines }

variable {lines more before rest text : Text} {tokens : List Token} {token : Token} {kind : TokenKind}

@[simp] theorem start_behind (lines : Text) (token : Token) :
    (token.behind lines).start = lines.byteSize + token.start :=
  rfl

theorem tokensFrom_behind (lines : Text) (skip : Nat) (place : Place) (s : Text) :
    tokensFrom skip (place.behind lines) s = (tokensFrom skip place s).map (behind lines) := by
  fun_induction tokensFrom skip place s with
  | case1 => rfl
  | case2 skip place c s ih => rw [tokensFrom, Place.next_behind, ih]
  | case3 place c s kind text found ih =>
    rw [tokensFrom, found, List.map_cons, ← ih, Place.next_behind]
    rfl
  | case4 place c s none ih =>
    rw [tokensFrom, none, ← ih, Place.next_behind]

namespace Scanner

/-- A line end and what is behind it play no part. -/
def StaysInLine (scan : Scanner) : Prop := ∀ s t, scan (s ++ '\n' :: t) = scan s

/-- What is behind a line end plays no part unless more than the line end is taken. -/
def StopsAtLine (scan : Scanner) : Prop :=
  ∀ s t, (scan (s ++ '\n' :: t)).length ≤ s.length + 1 → scan (s ++ ['\n']) = scan (s ++ '\n' :: t)

theorem StaysInLine.stopsAtLine {scan : Scanner} (stays : scan.StaysInLine) : scan.StopsAtLine :=
  fun s t _ => (stays s []).trans (stays s t).symm

variable {first second : Scanner}

theorem takeWhile_staysInLine {p : Char → Bool} (stops : p '\n' = false) :
    StaysInLine (·.takeWhile p) := by
  intro s t
  dsimp only
  induction s with
  | nil => simp [stops]
  | cons c s ih => rw [List.cons_append, List.takeWhile_cons, List.takeWhile_cons, ih]

theorem takeWhile_take_staysInLine (n : Nat) {p : Char → Bool} (stops : p '\n' = false) :
    StaysInLine fun s => (s.take n).takeWhile p := by
  intro s t
  dsimp only
  induction s generalizing n with
  | nil => cases n <;> simp [stops]
  | cons c s ih =>
    cases n with
    | zero => rfl
    | succ n =>
      rw [List.cons_append, List.take_succ_cons, List.take_succ_cons, List.takeWhile_cons,
        List.takeWhile_cons, ih]

theorem drop_append_of_takesPrefix (takes : first.TakesPrefix) (s t : Text) :
    (s ++ t).drop (first s).length = s.drop (first s).length ++ t :=
  List.drop_append_of_le_length (takes s).length_le

theorem andThen_staysInLine (takes : first.TakesPrefix) (stays : first.StaysInLine)
    (staysAfter : second.StaysInLine) : (first.andThen second).StaysInLine := by
  intro s t
  simp only [andThen, stays s t, drop_append_of_takesPrefix takes, staysAfter _ t]

theorem orElse_staysInLine (stays : first.StaysInLine) (staysElse : second.StaysInLine) :
    (first.orElse second).StaysInLine := by
  intro s t
  simp only [orElse, stays s t, staysElse s t]

end Scanner

theorem comment_staysInLine : StaysInLine comment := by
  intro s t
  cases s with
  | nil => rfl
  | cons c s =>
    have line := takeWhile_staysInLine (p := (· ≠ '\n')) (by decide) s t
    dsimp only at line
    by_cases mark : c = '#'
    · subst mark
      simp only [List.cons_append, comment, line]
    · simp [comment, mark]

theorem decorator_staysInLine : StaysInLine decorator := by
  intro s t
  match s with
  | [] => rfl
  | [c] =>
    have stops : isWordStart '\n' = false := by decide
    by_cases mark : c = '@' <;> simp [decorator, mark, stops]
  | c :: d :: s =>
    have line := takeWhile_staysInLine (p := fun c => isWord c || c = '.') (by decide) s t
    dsimp only at line
    by_cases mark : c = '@' <;> simp [decorator, mark, line]

theorem name_staysInLine : StaysInLine name := by
  intro s t
  cases s with
  | nil => rfl
  | cons c s =>
    have line := takeWhile_staysInLine (p := isWord) (by decide) s t
    dsimp only at line
    rw [List.cons_append, name, name, line]

theorem radixNumber_staysInLine : StaysInLine radixNumber := by
  intro s t
  match s with
  | [] => rfl
  | [c] => by_cases zero : c = '0' <;> simp [radixNumber, zero]
  | c :: d :: s =>
    have line := takeWhile_staysInLine (p := isRadixDigit) (by decide) s t
    dsimp only at line
    by_cases zero : c = '0'
    · subst zero
      simp only [List.cons_append, radixNumber, line]
    · simp [radixNumber, zero]

theorem digits_staysInLine : StaysInLine (·.takeWhile isDigitOrUnderscore) :=
  takeWhile_staysInLine (by decide)

theorem fraction_staysInLine : StaysInLine fraction := by
  intro s t
  cases s with
  | nil => rfl
  | cons c s =>
    have line := digits_staysInLine s t
    dsimp only at line
    by_cases point : c = '.' <;> simp [fraction, point, line]

theorem exponent_staysInLine : StaysInLine exponent := by
  intro s t
  cases s with
  | nil => rfl
  | cons c s =>
    have signStays : StaysInLine sign := takeWhile_take_staysInLine 1 (by decide)
    have signTakes : TakesPrefix sign := takeWhile_take_takesPrefix 1 _
    have line := takeWhile_staysInLine (p := isDecimalDigit) (by decide) (s.drop (sign s).length) t
    dsimp only at line
    simp only [List.cons_append, exponent, signStays s t, drop_append_of_takesPrefix signTakes, line]

theorem power_staysInLine : StaysInLine (exponent.andThen imaginaryUnit) :=
  andThen_staysInLine exponent_takesPrefix exponent_staysInLine
    (takeWhile_take_staysInLine 1 (by decide))

theorem decimalNumber_staysInLine : StaysInLine decimalNumber := by
  intro s t
  cases s with
  | nil => rfl
  | cons c s =>
    have line := andThen_staysInLine (takeWhile_takesPrefix _) digits_staysInLine
      (andThen_staysInLine fraction_takesPrefix fraction_staysInLine power_staysInLine) s t
    rw [List.cons_append, decimalNumber, decimalNumber, line]

theorem pointNumber_staysInLine : StaysInLine pointNumber := by
  intro s t
  match s with
  | [] => rfl
  | [c] =>
    have stops : isDecimalDigit '\n' = false := by decide
    by_cases point : c = '.' <;> simp [pointNumber, point, stops]
  | c :: d :: s =>
    have line := andThen_staysInLine (takeWhile_takesPrefix _) digits_staysInLine
      power_staysInLine s t
    by_cases point : c = '.' <;> simp [pointNumber, point, line]

theorem number_staysInLine : StaysInLine number :=
  orElse_staysInLine radixNumber_staysInLine
    (orElse_staysInLine decimalNumber_staysInLine pointNumber_staysInLine)

theorem operator_staysInLine : StaysInLine operator := takeWhile_staysInLine (by decide)

theorem stringBody_escape (quote c : Char) (s : Text) :
    stringBody quote ('\\' :: c :: s) = '\\' :: c :: stringBody quote s := by
  rw [stringBody]

theorem stringBody_cons {c : Char} (plain : c ≠ '\\') (quote : Char) (s : Text) :
    stringBody quote (c :: s) =
      if c = quote then [c] else if c = '\n' then [] else c :: stringBody quote s := by
  cases s <;> simp [stringBody, plain]

theorem stringBody_stopsAtLine {quote : Char} (isQuote : isQuote quote = true) :
    StopsAtLine (stringBody quote) := by
  have notEscape := ne_backslash_of_isQuote isQuote
  intro s t short
  fun_induction stringBody quote s with
  | case1 => simp [stringBody_cons]
  | case2 c s ih =>
    simp only [List.cons_append, stringBody_escape, List.length_cons] at short ⊢
    rw [ih (by omega)]
  | case3 s => simp [stringBody_cons notEscape]
  | case4 c s notPair notQuote ends =>
    rcases Bool.or_eq_true_iff.mp ends with ends | ends
    · obtain rfl := of_decide_eq_true ends
      simp [stringBody_cons]
    -- The backslash ends the lines, so it protects the line end.
    · obtain rfl := of_decide_eq_true ends
      cases s with
      | nil =>
        simp only [List.cons_append, List.nil_append, stringBody_escape, List.length_cons,
          List.length_nil] at short ⊢
        rw [List.eq_nil_of_length_eq_zero (show (stringBody quote t).length = 0 by omega)]
        rfl
      | cons d s => exact absurd rfl (notPair d s rfl)
  | case5 c s notPair notQuote goesOn ih =>
    have plain : c ≠ '\\' := by simp_all
    simp only [List.cons_append, stringBody_cons plain, notQuote, if_false] at short ⊢
    split
    · rfl
    · simp_all

theorem take_two_append_line {quote : Char} (other : quote ≠ '\n') (s t : Text) :
    (s ++ '\n' :: t).take 2 = [quote, quote] ↔ s.take 2 = [quote, quote] := by
  match s with
  | [] => simp [other.symm]
  | [c] => simp [other.symm]
  | c :: d :: s => simp

theorem tripleBody_stopsAtLine {quote : Char} (other : quote ≠ '\n') :
    StopsAtLine (tripleBody quote) := by
  intro s t short
  have step (c : Char) (s t : Text) : tripleBody quote (c :: s ++ '\n' :: t) =
      if c = quote && s.take 2 = [quote, quote] then [quote, quote, quote]
      else c :: tripleBody quote (s ++ '\n' :: t) := by
    rw [List.cons_append, tripleBody]
    simp only [take_two_append_line other]
  fun_induction tripleBody quote s with
  | case1 =>
    simp only [List.nil_append, tripleBody, other.symm, decide_false, Bool.false_and,
      Bool.false_eq_true, if_false, List.length_cons, List.length_nil] at short ⊢
    rw [List.eq_nil_of_length_eq_zero (show (tripleBody quote t).length = 0 by omega)]
  | case2 c s closes => rw [step, step, if_pos closes, if_pos closes]
  | case3 c s goesOn ih =>
    rw [step, if_neg goesOn, List.length_cons, List.length_cons] at short
    rw [step, step, if_neg goesOn, if_neg goesOn, ih (by omega)]

theorem stringLetters_staysInLine : StaysInLine stringLetters :=
  takeWhile_take_staysInLine 2 (by decide)

theorem string_stopsAtLine : StopsAtLine string := by
  intro s t short
  have size := congrArg List.length
    (List.prefix_iff_eq_append.mp (stringLetters_takesPrefix s))
  unfold string at short ⊢
  simp only [stringLetters_staysInLine s,
    drop_append_of_takesPrefix stringLetters_takesPrefix] at short ⊢
  cases opening : s.drop (stringLetters s).length with
  | nil => simp [isQuote]
  | cons quote body =>
    simp only [opening, List.cons_append, List.length_append, List.length_cons] at short size ⊢
    split
    · rename_i isQuote
      simp only [isQuote, if_true, List.length_append, List.length_cons] at short
      rw [stringBody_stopsAtLine isQuote body t (by omega)]
    · rfl

/-- Three quotes in a row stand on one line. -/
theorem tripleString_append_line {s : Text}
    (few : (s.drop (stringLetters s).length).length ≤ 2) (t : Text) :
    tripleString (s ++ '\n' :: t) = [] := by
  rcases tripleString_cases (s ++ '\n' :: t) with none | ⟨quote, body, isQuote, split, -⟩
  · exact none
  have letters := List.prefix_iff_eq_append.mp (stringLetters_takesPrefix s)
  rw [stringLetters_staysInLine] at split
  have whole : stringLetters s ++ (s.drop (stringLetters s).length ++ '\n' :: t) =
      stringLetters s ++ quote :: quote :: quote :: body := by
    rw [← List.append_assoc, letters, split]
  have behind := List.append_cancel_left whole
  have line : '\n' = quote := by
    generalize s.drop (stringLetters s).length = left at few behind
    match left with
    | [] => exact (List.cons.inj behind).1
    | [_] => exact (List.cons.inj (List.cons.inj behind).2).1
    | [_, _] => exact (List.cons.inj (List.cons.inj (List.cons.inj behind).2).2).1
    | _ :: _ :: _ :: _ => simp at few
  subst line
  exact absurd isQuote (by decide)

theorem tripleString_stopsAtLine : StopsAtLine tripleString := by
  intro s t short
  match opening : s.drop (stringLetters s).length with
  | [] | [_] | [_, _] =>
    rw [tripleString_append_line (by simp [opening]), tripleString_append_line (by simp [opening])]
  | first :: second :: third :: body =>
    have size := congrArg List.length
      (List.prefix_iff_eq_append.mp (stringLetters_takesPrefix s))
    unfold tripleString at short ⊢
    simp only [stringLetters_staysInLine s, opening, List.cons_append, List.length_append,
      List.length_cons, drop_append_of_takesPrefix stringLetters_takesPrefix] at short size ⊢
    split
    · rename_i quotes
      have notLine : first ≠ '\n' := by
        rintro rfl
        exact absurd quotes (by simp [isQuote])
      simp only [quotes, if_true, List.length_append, List.length_cons] at short
      rw [tripleBody_stopsAtLine notLine body t (by omega)]
    · rfl

theorem scanners_stopAtLine : ∀ scanner ∈ scanners, scanner.2.StopsAtLine := by
  intro scanner mem
  simp only [scanners, List.mem_cons, List.not_mem_nil, or_false] at mem
  rcases mem with rfl | rfl | rfl | rfl | rfl | rfl | rfl
  · exact tripleString_stopsAtLine
  · exact string_stopsAtLine
  · exact comment_staysInLine.stopsAtLine
  · exact decorator_staysInLine.stopsAtLine
  · exact number_staysInLine.stopsAtLine
  · exact name_staysInLine.stopsAtLine
  · exact operator_staysInLine.stopsAtLine

variable {scanner : TokenKind × Scanner}

/-- What is behind some lines plays no part for a scanner that takes no more than the lines. -/
theorem scan_eq_of_append (mem : scanner ∈ scanners) (ends : lines.getLast? = some '\n')
    (fits : (scanner.2 (lines ++ more)).length ≤ lines.length) :
    scanner.2 lines = scanner.2 (lines ++ more) := by
  obtain ⟨front, rfl⟩ := List.getLast?_eq_some_iff.mp ends
  rw [List.append_assoc, List.length_append] at fits
  rw [List.append_assoc]
  exact scanners_stopAtLine scanner mem front more fits

theorem scan_eq_nil_of_append (mem : scanner ∈ scanners) (ends : lines.getLast? = some '\n')
    (none : scanner.2 (lines ++ more) = []) : scanner.2 lines = [] := by
  have fits : (scanner.2 (lines ++ more)).length ≤ lines.length := by simp [none]
  rw [scan_eq_of_append mem ends fits, none]

theorem first?_eq_none_of_append (ends : lines.getLast? = some '\n')
    (none : first? (lines ++ more) = none) : first? lines = .none := by
  rw [first?_eq_none_iff_scanners] at none ⊢
  exact fun scanner mem => scan_eq_nil_of_append mem ends (none scanner mem)

/-- The token that comes first is the same without what is behind the lines, if it ends in them. -/
theorem first?_eq_some_of_append (ends : lines.getLast? = some '\n')
    (found : first? (lines ++ more) = some (kind, text)) (fits : text.length ≤ lines.length) :
    first? lines = some (kind, text) := by
  obtain ⟨nonempty, earlier, scan, later, split, rfl, none⟩ := first?_eq_some_iff.mp found
  have all : ∀ scanner ∈ earlier ++ (kind, scan) :: later, scanner ∈ scanners := by simp [split]
  refine first?_eq_some_iff.mpr ⟨nonempty, earlier, scan, later, split, ?_, ?_⟩
  · exact scan_eq_of_append (all (kind, scan) (by simp)) ends fits
  · intro scanner mem
    exact scan_eq_nil_of_append (all scanner (by simp [mem])) ends (none scanner mem)

/-- The token starts before the boundary and ends behind it. -/
def Crosses (token : Token) (boundary : Nat) : Prop :=
  token.start < boundary ∧ boundary < token.stop

instance (token : Token) (boundary : Nat) : Decidable (token.Crosses boundary) :=
  inferInstanceAs (Decidable (_ ∧ _))

theorem eq_nil_or_getLast?_of_append {front back : Text}
    (ends : (front ++ back).getLast? = some '\n') : back = [] ∨ back.getLast? = some '\n' := by
  cases back with
  | nil => exact .inl rfl
  | cons c back => exact .inr (by simpa using ends)

theorem Reads.split_nil (reads : Reads before more tokens) :
    ∃ first second, tokens = first ++ second ∧ Reads before [] first ∧
      Reads (before ++ []) more second :=
  ⟨[], tokens, rfl, .done, by rwa [List.append_nil]⟩

/-- Where no token lies across the end of some lines, reading comes by that end. -/
theorem Reads.split (reads : Reads before rest tokens) (whole : rest = lines ++ more)
    (ends : lines = [] ∨ lines.getLast? = some '\n')
    (clean : ∀ token ∈ tokens, ¬ token.Crosses (before ++ lines).byteSize) :
    ∃ first second, tokens = first ++ second ∧ Reads before lines first ∧
      Reads (before ++ lines) more second := by
  induction reads generalizing lines with
  | done =>
    obtain ⟨rfl, rfl⟩ := List.append_eq_nil_iff.mp whole.symm
    exact ⟨[], [], rfl, .done, .done⟩
  | @pass before rest c tokens none later ih =>
    rcases ends with rfl | ends
    · rw [List.nil_append] at whole
      exact split_nil (whole ▸ .pass none later)
    · obtain ⟨d, lines, rfl⟩ := List.exists_cons_of_ne_nil (l := lines) (by rintro rfl; simp at ends)
      rw [List.cons_append] at whole
      obtain ⟨rfl, rfl⟩ := List.cons.inj whole
      rw [← List.cons_append] at none
      have endsRest : lines = [] ∨ lines.getLast? = some '\n' :=
        eq_nil_or_getLast?_of_append (List.singleton_append ▸ ends)
      obtain ⟨first, second, rfl, inLines, behind⟩ := ih rfl endsRest (by simpa using clean)
      exact ⟨first, second, rfl, .pass (first?_eq_none_of_append ends none) inLines,
        by simpa using behind⟩
  | @read before text rest kind tokens found later ih =>
    rcases ends with rfl | ends
    · rw [List.nil_append] at whole
      exact split_nil (whole ▸ .read found later)
    · obtain ⟨notHere, clean⟩ := List.forall_mem_cons.mp clean
      have nonempty : 0 < lines.byteSize := Text.byteSize_pos (by rintro rfl; simp at ends)
      have fits : text.byteSize ≤ lines.byteSize := by
        rw [Crosses, start_eq rfl, stop_eq rfl] at notHere
        simp only [Text.byteSize_append] at notHere
        omega
      obtain ⟨left, rfl, rfl⟩ := Text.exists_append_of_byteSize_le whole fits
      rw [← List.append_assoc] at found
      have foundAlone := first?_eq_some_of_append ends found (by simp)
      have endsRest := eq_nil_or_getLast?_of_append ends
      obtain ⟨first, second, rfl, inLines, behind⟩ := ih rfl endsRest (by simpa using clean)
      exact ⟨_ :: first, second, rfl, .read foundAlone inLines, by simpa using behind⟩

/-- Where no token lies across the end of some lines, and only there, the tokens of the lines with a
text behind them are the tokens of the lines and those of the text, each behind the lines. -/
theorem tokenize_append_iff (ends : lines.getLast? = some '\n') :
    (∀ token ∈ tokenize (lines ++ more), ¬ token.Crosses lines.byteSize) ↔
      tokenize (lines ++ more) = tokenize lines ++ (tokenize more).map (behind lines) := by
  constructor
  case mp =>
    intro clean
    obtain ⟨first, second, split, inLines, afterLines⟩ :=
      (reads_tokenize (lines ++ more)).split rfl (.inr ends) clean
    rw [split, inLines.eq_tokensFrom, afterLines.eq_tokensFrom, List.nil_append,
      Place.after_eq_start_behind ends, tokensFrom_behind]
    rfl
  case mpr =>
    intro split token mem crosses
    obtain ⟨starts, ends⟩ := crosses
    rw [split] at mem
    rcases List.mem_append.mp mem with inLines | behindLines
    · have within := (partOf_tokenize inLines).stop_le
      omega
    · obtain ⟨later, _, rfl⟩ := List.mem_map.mp behindLines
      rw [start_behind] at starts
      omega

/-- A string that takes the line end behind its backslash and no more, and one behind it that is
not closed. -/
theorem tokenize_append_iff_protectedLine :
    "s = 'a\\\n".toList.getLast? = some '\n' ∧
      (∀ token ∈ tokenize ("s = 'a\\\n".toList ++ "\n'''b = 1".toList), ¬ token.Crosses 8) ∧
      tokenize ("s = 'a\\\n".toList ++ "\n'''b = 1".toList) =
        tokenize "s = 'a\\\n".toList ++
          (tokenize "\n'''b = 1".toList).map (behind "s = 'a\\\n".toList) := by
  have ends : "s = 'a\\\n".toList.getLast? = some '\n' := by decide
  have clean : ∀ token ∈ tokenize ("s = 'a\\\n".toList ++ "\n'''b = 1".toList),
      ¬ token.Crosses 8 := by
    decide +kernel
  exact ⟨ends, clean, (tokenize_append_iff ends).mp clean⟩

end Token

end Hyperlisting
