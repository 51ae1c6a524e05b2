import Mathlib.Data.List.TakeWhile
import Mathlib.Tactic.ByContra
import Hyperlisting.Proofs.Unicode
import Hyperlisting.Proofs.Token.Scan

/-! Where tokens start and where they end. Whether a token starts at a character is told by that
character and the next one, and only a number may end in front of a word character when its own last
one is one too. -/

namespace Hyperlisting.Token

open Unicode Scanner

variable {s text rest : Text} {c d : Char} {kind : TokenKind}

theorem isWord_of_isStringLetter (letter : isStringLetter c = true) : isWord c = true := by
  have words : "rRbBuUfF".toList.all isWord = true := by decide
  exact List.all_eq_true.mp words c (List.contains_iff_mem.mp letter)

theorem isWord_eq_false_of_isOperatorChar (operator : isOperatorChar c = true) :
    isWord c = false := by
  have others : "-+*/%=<>!&|^~".toList.all (!isWord ·) = true := by decide
  simpa using List.all_eq_true.mp others c (List.contains_iff_mem.mp operator)

theorem isQuote_iff : isQuote c = true ↔ c = '"' ∨ c = '\'' := by
  simp [isQuote]

theorem isWord_eq_false_of_isQuote (quote : isQuote c = true) : isWord c = false := by
  rcases isQuote_iff.mp quote with rfl | rfl <;> decide

theorem isStringLetter_eq_false_of_isQuote (quote : isQuote c = true) :
    isStringLetter c = false := by
  rcases isQuote_iff.mp quote with rfl | rfl <;> decide

theorem ne_backslash_of_isQuote (quote : isQuote c = true) : c ≠ '\\' := by
  rcases isQuote_iff.mp quote with rfl | rfl <;> decide

theorem stringLetters_cons (other : isStringLetter c = false) (s : Text) :
    stringLetters (c :: s) = [] := by
  simp [stringLetters, other]

theorem string_eq_nil (notLetter : isStringLetter c = false) (notQuote : isQuote c = false)
    (s : Text) : string (c :: s) = [] := by
  simp [string, stringLetters_cons notLetter, notQuote]

theorem string_ne_nil (quote : isQuote c = true) (s : Text) : string (c :: s) ≠ [] := by
  simp [string, stringLetters_cons (isStringLetter_eq_false_of_isQuote quote), quote]

theorem tripleString_eq_nil (notLetter : isStringLetter c = false) (notQuote : isQuote c = false)
    (s : Text) : tripleString (c :: s) = [] := by
  unfold tripleString
  rw [stringLetters_cons notLetter]
  dsimp only [List.length_nil, List.drop_zero]
  split
  · rename_i opening
    obtain ⟨rfl, rfl⟩ := List.cons.inj opening
    simp [notQuote]
  · rfl

theorem comment_eq_nil_iff : comment (c :: s) = [] ↔ c ≠ '#' := by
  unfold comment
  split <;> simp_all

theorem decorator_eq_nil_iff :
    decorator (c :: s) = [] ↔ (c = '@' → ∀ d ∈ s.head?, isWordStart d = false) := by
  unfold decorator
  split
  · split <;> simp_all
  · cases s <;> simp_all

theorem pointNumber_eq_nil_iff :
    pointNumber (c :: s) = [] ↔ (c = '.' → ∀ d ∈ s.head?, isDecimalDigit d = false) := by
  unfold pointNumber
  split
  · split <;> simp_all
  · cases s <;> simp_all

theorem decimalNumber_eq_nil_iff : decimalNumber (c :: s) = [] ↔ isDecimalDigit c = false := by
  simp [decimalNumber]

theorem radixNumber_eq_nil (other : isDecimalDigit c = false) (s : Text) :
    radixNumber (c :: s) = [] := by
  unfold radixNumber
  split
  · rename_i zero
    obtain ⟨rfl, rfl⟩ := List.cons.inj zero
    exact absurd other (by decide)
  · rfl

theorem Scanner.orElse_eq_nil_iff {first second : Scanner} :
    first.orElse second s = [] ↔ first s = [] ∧ second s = [] := by
  unfold orElse
  split <;> simp_all

theorem number_eq_nil_iff : number (c :: s) = [] ↔
    isDecimalDigit c = false ∧ (c = '.' → ∀ d ∈ s.head?, isDecimalDigit d = false) := by
  rw [number, orElse_eq_nil_iff, orElse_eq_nil_iff, decimalNumber_eq_nil_iff,
    pointNumber_eq_nil_iff, and_iff_right_of_imp fun others => radixNumber_eq_nil others.1 s]

theorem name_eq_nil_iff : name (c :: s) = [] ↔ isWordStart c = false := by
  simp [name]

theorem operator_eq_nil_iff : operator (c :: s) = [] ↔ isOperatorChar c = false := by
  simp [operator, List.takeWhile_cons]

theorem taken_eq_none_iff (kind : TokenKind) (scan : Scanner) (s : Text) :
    (match scan s with
      | [] => none
      | text => some (kind, text)) = none ↔ scan s = [] := by
  split <;> simp_all

theorem first?_eq_none_iff_scanners :
    first? s = none ↔ ∀ scanner ∈ scanners, scanner.2 s = [] := by
  rw [first?, List.findSome?_eq_none_iff]
  exact forall₂_congr fun (kind, scan) _ => taken_eq_none_iff kind scan s

/-- The first token is what the first scanner takes that takes anything. -/
theorem first?_eq_some_iff : first? s = some (kind, text) ↔ text ≠ [] ∧
    ∃ earlier scan later, scanners = earlier ++ (kind, scan) :: later ∧ scan s = text ∧
      ∀ scanner ∈ earlier, scanner.2 s = [] := by
  rw [first?, List.findSome?_eq_some_iff]
  constructor
  case mp =>
    rintro ⟨earlier, ⟨found, scan⟩, later, split, taken, none⟩
    dsimp only at taken
    split at taken
    · cases taken
    · rename_i nonempty
      obtain ⟨rfl, rfl⟩ := Prod.mk.inj (Option.some.inj taken)
      exact ⟨nonempty, earlier, scan, later, split, rfl, fun scanner mem =>
        (taken_eq_none_iff ..).mp (none scanner mem)⟩
  case mpr =>
    rintro ⟨nonempty, earlier, scan, later, split, rfl, none⟩
    refine ⟨earlier, (kind, scan), later, split, ?_, fun scanner mem =>
      (taken_eq_none_iff ..).mpr (none scanner mem)⟩
    dsimp only
    split
    · exact absurd ‹scan s = []› nonempty
    · rfl

/-- No token starts at the character, which has `rest` behind it. -/
structure PassedOver (c : Char) (rest : Text) : Prop where
  notQuote : isQuote c = false
  notHash : c ≠ '#'
  notWord : isWord c = false
  notOperator : isOperatorChar c = false
  notDecorator : c = '@' → ∀ d ∈ rest.head?, isWordStart d = false
  notFraction : c = '.' → ∀ d ∈ rest.head?, isDecimalDigit d = false

theorem first?_eq_none_iff : first? (c :: s) = none ↔ PassedOver c s := by
  rw [first?_eq_none_iff_scanners]
  simp only [scanners, List.forall_mem_cons, List.not_mem_nil, false_implies, implies_true,
    and_true, comment_eq_nil_iff, decorator_eq_nil_iff, number_eq_nil_iff, name_eq_nil_iff,
    operator_eq_nil_iff]
  constructor
  case mp =>
    rintro ⟨-, noString, notHash, notDecorator, ⟨notDigit, notFraction⟩, notStart, notOperator⟩
    exact { notQuote := Bool.eq_false_iff.mpr fun quote => string_ne_nil quote s noString
            notHash
            notWord := isWord_eq_false_iff.mpr ⟨notStart, notDigit⟩
            notOperator, notDecorator, notFraction }
  case mpr =>
    intro passed
    obtain ⟨notStart, notDigit⟩ := isWord_eq_false_iff.mp passed.notWord
    have notLetter : isStringLetter c = false := by
      rw [Bool.eq_false_iff]
      intro letter
      exact Bool.eq_false_iff.mp passed.notWord (isWord_of_isStringLetter letter)
    exact ⟨tripleString_eq_nil notLetter passed.notQuote s,
      string_eq_nil notLetter passed.notQuote s, passed.notHash, passed.notDecorator,
      ⟨notDigit, passed.notFraction⟩, notStart, passed.notOperator⟩

/-- Where an operator starts nothing else does, so the token has all operator characters that are
next to each other. -/
theorem first?_of_isOperatorChar (isOperator : isOperatorChar c = true) (s : Text) :
    first? (c :: s) = some (.operator, c :: s.takeWhile isOperatorChar) := by
  have others : "-+*/%=<>!&|^~".toList.all (fun d =>
      !isStringLetter d && !isQuote d && d ≠ '#' && d ≠ '@' && d ≠ '.') = true := by decide
  have other := List.all_eq_true.mp others c (List.contains_iff_mem.mp isOperator)
  simp only [Bool.and_eq_true, Bool.not_eq_true', decide_eq_true_eq] at other
  obtain ⟨⟨⟨⟨notLetter, notQuote⟩, notHash⟩, notAt⟩, notPoint⟩ := other
  obtain ⟨notStart, notDigit⟩ :=
    isWord_eq_false_iff.mp (isWord_eq_false_of_isOperatorChar isOperator)
  refine first?_eq_some_iff.mpr ⟨List.cons_ne_nil _ _, scanners.dropLast, operator, [], rfl, ?_, ?_⟩
  · rw [operator, List.takeWhile_cons_of_pos isOperator]
  · simp only [scanners, List.dropLast_cons_cons, List.dropLast_singleton, List.forall_mem_cons,
      List.not_mem_nil, false_implies, implies_true, and_true]
    exact ⟨tripleString_eq_nil notLetter notQuote s, string_eq_nil notLetter notQuote s,
      comment_eq_nil_iff.mpr notHash, decorator_eq_nil_iff.mpr (absurd · notAt),
      number_eq_nil_iff.mpr ⟨notDigit, (absurd · notPoint)⟩, name_eq_nil_iff.mpr notStart⟩

/-- A string token is made of its letters, its opening quote and its body. -/
theorem string_cases (s : Text) : string s = [] ∨
    ∃ quote body, isQuote quote = true ∧ s = stringLetters s ++ quote :: body ∧
      string s = stringLetters s ++ quote :: stringBody quote body := by
  have letters := List.prefix_iff_eq_append.mp (stringLetters_takesPrefix s)
  unfold string
  dsimp only
  split
  · rename_i quote body opening
    split
    · rename_i isQuote
      exact .inr ⟨quote, body, isQuote, (opening ▸ letters).symm, rfl⟩
    · exact .inl rfl
  · exact .inl rfl

theorem tripleString_cases (s : Text) : tripleString s = [] ∨
    ∃ quote body, isQuote quote = true ∧
      s = stringLetters s ++ quote :: quote :: quote :: body ∧
      tripleString s = stringLetters s ++ quote :: quote :: quote :: tripleBody quote body := by
  have letters := List.prefix_iff_eq_append.mp (stringLetters_takesPrefix s)
  unfold tripleString
  dsimp only
  split
  · rename_i first second third body opening
    split
    · rename_i quotes
      simp only [Bool.and_eq_true, decide_eq_true_eq] at quotes
      obtain ⟨⟨isQuote, rfl⟩, rfl⟩ := quotes
      exact .inr ⟨_, body, isQuote, (opening ▸ letters).symm, rfl⟩
    · exact .inl rfl
  · exact .inl rfl

/-- A run of characters goes on as far as it can. -/
theorem takeWhile_stops {p : Char → Bool} (whole : s = s.takeWhile p ++ d :: rest) :
    p d = false := by
  have split := List.takeWhile_append_dropWhile (p := p) (l := s)
  have behind : s.dropWhile p = d :: rest := List.append_cancel_left (split.trans whole)
  have stopped := List.head?_dropWhile_not p s
  simpa [behind] using stopped

/-- An unclosed body goes on to the end of the text. -/
theorem tripleBody_stops {quote : Char} (whole : s = tripleBody quote s ++ d :: rest) :
    (tripleBody quote s).getLast? = some quote := by
  fun_induction tripleBody quote s with
  | case1 => simp at whole
  | case2 => rfl
  | case3 c s _ ih =>
    have last := ih (List.cons.inj whole).2
    rw [List.getLast?_cons, last]
    rfl

theorem stringBody_stops {quote : Char} (whole : s = stringBody quote s ++ d :: rest) :
    (stringBody quote s).getLast? = some quote ∨ d = '\n' ∨ d = '\\' := by
  fun_induction stringBody quote s with
  | case1 => simp at whole
  | case2 c s ih =>
    refine (ih (List.cons.inj (List.cons.inj whole).2).2).imp_left ?_
    intro last
    rw [List.getLast?_cons, List.getLast?_cons, last]
    rfl
  | case3 => exact .inl rfl
  | case4 c s _ _ ends =>
    obtain ⟨rfl, -⟩ := List.cons.inj whole
    exact .inr (by simpa using ends)
  | case5 c s _ _ _ ih =>
    refine (ih (List.cons.inj whole).2).imp_left ?_
    intro last
    rw [List.getLast?_cons, last]
    rfl

namespace Scanner

/-- What the scanner takes does not end between two word characters. -/
def EndsWords (scan : Scanner) : Prop :=
  ∀ s d rest, s = scan s ++ d :: rest →
    (∀ c ∈ (scan s).getLast?, isWord c = false) ∨ isWord d = false

end Scanner

theorem tripleString_endsWords : EndsWords tripleString := by
  intro s d rest whole
  rcases tripleString_cases s with none | ⟨quote, body, isQuote, split, taken⟩
  · simp [none]
  rw [taken, List.append_assoc] at whole
  have behind := List.append_cancel_left (split.symm.trans whole)
  have last : (tripleBody quote body).getLast? = some quote :=
    tripleBody_stops (by simpa using behind)
  left
  intro c mem
  rw [taken] at mem
  obtain rfl : quote = c := by simpa [List.getLast?_cons, last] using mem
  exact isWord_eq_false_of_isQuote isQuote

theorem string_endsWords : EndsWords string := by
  intro s d rest whole
  rcases string_cases s with none | ⟨quote, body, isQuote, split, taken⟩
  · simp [none]
  rw [taken, List.append_assoc] at whole
  have behind := List.append_cancel_left (split.symm.trans whole)
  rcases stringBody_stops (List.cons.inj behind).2 with last | rfl | rfl
  · left
    intro c mem
    rw [taken] at mem
    obtain rfl : quote = c := by simpa [List.getLast?_cons, last] using mem
    exact isWord_eq_false_of_isQuote isQuote
  · exact .inr (by decide)
  · exact .inr (by decide)

theorem comment_endsWords : EndsWords comment := by
  intro s d rest whole
  unfold comment at whole ⊢
  split at whole
  · right
    obtain rfl : d = '\n' := by simpa using takeWhile_stops (List.cons.inj whole).2
    decide
  · simp

theorem decorator_endsWords : EndsWords decorator := by
  intro s d rest whole
  unfold decorator at whole ⊢
  split at whole
  · split at whole
    · right
      have stopped := takeWhile_stops (List.cons.inj (List.cons.inj whole).2).2
      exact (Bool.or_eq_false_iff.mp stopped).1
    · simp_all
  · simp

theorem name_endsWords : EndsWords name := by
  intro s d rest whole
  unfold name at whole ⊢
  split at whole
  · split at whole
    · exact .inr (takeWhile_stops (List.cons.inj whole).2)
    · simp_all
  · simp

theorem operator_endsWords : EndsWords operator := by
  intro s d rest _
  left
  intro c mem
  exact isWord_eq_false_of_isOperatorChar (List.mem_takeWhile_imp (List.mem_of_getLast? mem))

theorem scanners_endWords :
    ∀ scanner ∈ scanners, scanner.1 ≠ .number → scanner.2.EndsWords := by
  intro scanner mem notNumber
  simp only [scanners, List.mem_cons, List.not_mem_nil, or_false] at mem
  rcases mem with rfl | rfl | rfl | rfl | rfl | rfl | rfl
  · exact tripleString_endsWords
  · exact string_endsWords
  · exact comment_endsWords
  · exact decorator_endsWords
  · exact absurd rfl notNumber
  · exact name_endsWords
  · exact operator_endsWords

/-- A token that ends between two word characters is a number. -/
theorem kind_eq_number_of_first? (found : first? (text ++ d :: rest) = some (kind, text))
    (last : c ∈ text.getLast?) (word : isWord c = true) (nextWord : isWord d = true) :
    kind = .number := by
  obtain ⟨scan, mem, taken, _⟩ := exists_scanner_of_first? found
  by_contra notNumber
  have ends : scan.EndsWords := scanners_endWords _ mem notNumber
  have ends := ends (text ++ d :: rest) d rest (by rw [taken])
  rw [taken] at ends
  rcases ends with lastOther | nextOther
  · exact absurd (lastOther c last) (by simp [word])
  · exact absurd nextOther (by simp [nextWord])

/-- A name goes on as long as there are word characters. -/
theorem isWord_eq_false_of_first?_name
    (found : first? (text ++ d :: rest) = some (.name, text)) : isWord d = false := by
  rw [Bool.eq_false_iff]
  intro word
  have isName := isName_of_first? found
  have last : text.getLast? = some (text.getLast isName.ne_nil) :=
    List.getLast?_eq_some_getLast isName.ne_nil
  have number := kind_eq_number_of_first? found last (isName.word _ (List.getLast_mem _)) word
  cases number

end Hyperlisting.Token
