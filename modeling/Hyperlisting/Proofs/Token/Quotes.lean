import Mathlib.Algebra.Group.Nat.Even
import Mathlib.Data.List.Induction
import Hyperlisting.Proofs.Token.Order
import Hyperlisting.Proofs.Token.Start

/-! Where strings end. A scan behind the opening quotes takes a backslash and the next character as
one. A string with one quote ends where that scan comes to the quote. A string with three quotes
ends at the first three in a row, so an escaped quote ends it as soon as two more are behind it. -/

namespace Hyperlisting.Token

variable {source s inner front mark taken rest : Text} {token : Token} {kind : TokenKind}
  {quote c : Char}

/-- What a scan passes: a backslash with the character behind it, or another character. In a string
of one line it does not pass a line end by itself. -/
inductive Scanned (kind : TokenKind) : Text → Prop
  | nil : Scanned kind []
  | plain {c : Char} {s : Text} : c ≠ '\\' → (c = '\n' → kind = .tripleString) →
      Scanned kind s → Scanned kind (c :: s)
  | escaped (c : Char) {s : Text} : Scanned kind s → Scanned kind ('\\' :: c :: s)

theorem Scanned.append (first : Scanned kind s) (second : Scanned kind inner) :
    Scanned kind (s ++ inner) := by
  induction first with
  | nil => exact second
  | plain notEscape line _ ih => exact .plain notEscape line ih
  | escaped c _ ih => exact .escaped c ih

/-- No scan stops between a backslash and the character behind it. -/
theorem Scanned.not_lone (first : Scanned kind s) : ¬ Scanned kind (s ++ ['\\']) := by
  induction first with
  | nil =>
    intro lone
    cases lone with
    | plain notEscape => exact notEscape rfl
  | plain notEscape _ _ ih =>
    intro whole
    rw [List.cons_append] at whole
    generalize _ ++ ['\\'] = lone at whole ih
    cases whole with
    | plain _ _ behind => exact ih behind
    | escaped => exact notEscape rfl
  | escaped c _ ih =>
    intro whole
    rw [List.cons_append, List.cons_append] at whole
    cases whole with
    | plain notEscape => exact notEscape rfl
    | escaped _ behind => exact ih behind

/-- Every part of the text is passed, or its last backslash waits for the next character. -/
theorem scanned_or_waits (s : Text) :
    Scanned .tripleString s ∨ ∃ front, s = front ++ ['\\'] ∧ Scanned .tripleString front := by
  induction s using List.reverseRecOn with
  | nil => exact .inl .nil
  | append_singleton s c ih =>
    rcases ih with passed | ⟨front, rfl, passed⟩
    · by_cases escape : c = '\\'
      · subst escape
        exact .inr ⟨s, rfl, passed⟩
      · exact .inl (passed.append (.plain escape (fun _ => rfl) .nil))
    · left
      rw [List.append_assoc]
      exact passed.append (.escaped c .nil)

theorem scanned_concat_iff :
    Scanned .tripleString (s ++ [c]) ↔ (c = '\\' → ¬ Scanned .tripleString s) := by
  constructor
  · rintro whole rfl passed
    exact passed.not_lone whole
  · intro free
    rcases scanned_or_waits s with passed | ⟨front, rfl, passed⟩
    · exact passed.append (.plain (fun escape => free escape passed) (fun _ => rfl) .nil)
    · rw [List.append_assoc]
      exact passed.append (.escaped c .nil)

/-- How many backslashes the text ends with. -/
def lastBackslashes (s : Text) : Nat := (s.reverse.takeWhile (· = '\\')).length

theorem lastBackslashes_concat (s : Text) (c : Char) :
    lastBackslashes (s ++ [c]) = if c = '\\' then lastBackslashes s + 1 else 0 := by
  by_cases escape : c = '\\' <;> simp [lastBackslashes, escape]

/-- Backslashes pair off, so a scan comes to a place with an even number of them in front. -/
theorem scanned_iff_even : Scanned .tripleString s ↔ Even (lastBackslashes s) := by
  induction s using List.reverseRecOn with
  | nil => exact iff_of_true .nil Even.zero
  | append_singleton s c ih =>
    rw [scanned_concat_iff, lastBackslashes_concat, ih]
    by_cases escape : c = '\\' <;> simp [escape, Nat.even_add_one]

/-- The mark stands in the text, behind `front`. -/
def Occurs (mark s front : Text) : Prop := front ++ mark <+: s

/-- A scan of the text comes to the mark, behind `front`. -/
structure Reached (kind : TokenKind) (mark s front : Text) : Prop where
  scanned : Scanned kind front
  occurs : Occurs mark s front

/-- `taken` ends with the mark, at the first of some places. -/
def EndsAtFirst (places : Text → Prop) (mark taken : Text) : Prop :=
  ∃ front, taken = front ++ mark ∧ places front ∧
    ∀ other, places other → front.length ≤ other.length

/-- The quotes that open and close a string. -/
def quotes : TokenKind → Char → Text
  | .tripleString, quote => [quote, quote, quote]
  | _, quote => [quote]

/-- A scan for the closing quotes, behind the opening ones, ends at the end of `taken`, which has
`rest` behind it. -/
inductive EndsByScan (quote : Char) : TokenKind → (taken rest : Text) → Prop
  | closed {kind : TokenKind} {taken rest : Text} :
      EndsAtFirst (Reached kind (quotes kind quote) (taken ++ rest)) (quotes kind quote) taken →
      EndsByScan quote kind taken rest
  | unclosed {taken : Text} :
      (∀ front, ¬ Reached .tripleString (quotes .tripleString quote) taken front) →
      EndsByScan quote .tripleString taken []
  | unclosedLine {taken rest : Text} :
      (∀ front, ¬ Reached .string (quotes .string quote) (taken ++ rest) front) →
      Scanned .string taken → rest = [] ∨ rest.head? = some '\n' ∨ rest = ['\\'] →
      EndsByScan quote .string taken rest

/-- `taken` ends with the first three quotes in a row, or is all of an unclosed text. -/
def EndsAtQuotes (quote : Char) (taken rest : Text) : Prop :=
  EndsAtFirst (Occurs (quotes .tripleString quote) (taken ++ rest)) (quotes .tripleString quote)
      taken ∨
    (∀ front, ¬ Occurs (quotes .tripleString quote) taken front) ∧ rest = []

theorem endsAtFirst_here {places : Text → Prop} (here : places []) (mark : Text) :
    EndsAtFirst places mark mark :=
  ⟨[], rfl, here, fun _ _ => Nat.zero_le _⟩

/-- The first place stays the first when the same text is put in front of all. -/
theorem EndsAtFirst.prepend {places moved : Text → Prop} (first : EndsAtFirst places mark taken)
    (unit : Text) (moves : ∀ front, moved front ↔ ∃ inner, front = unit ++ inner ∧ places inner) :
    EndsAtFirst moved mark (unit ++ taken) := by
  obtain ⟨front, rfl, here, least⟩ := first
  refine ⟨unit ++ front, (List.append_assoc ..).symm, (moves _).mpr ⟨front, rfl, here⟩, ?_⟩
  intro other place
  obtain ⟨inner, rfl, before⟩ := (moves other).mp place
  have shorter := least inner before
  simp only [List.length_append]
  omega

theorem reached_escaped_iff (notEscape : quote ≠ '\\') :
    Reached .string [quote] ('\\' :: c :: s) front ↔
      ∃ inner, front = ['\\', c] ++ inner ∧ Reached .string [quote] s inner := by
  constructor
  case mp =>
    rintro ⟨scanned, more, whole⟩
    cases scanned with
    | nil => exact absurd (List.cons.inj whole).1 notEscape
    | plain plain => exact absurd (List.cons.inj whole).1 plain
    | escaped d scanned =>
      obtain ⟨rfl, behind⟩ := List.cons.inj (List.cons.inj whole).2
      exact ⟨_, rfl, scanned, more, behind⟩
  case mpr =>
    rintro ⟨inner, rfl, scanned, more, behind⟩
    exact ⟨.escaped c scanned, more, by simpa using behind⟩

theorem reached_plain_iff (notEscape : c ≠ '\\') (notLine : c ≠ '\n') (notQuote : c ≠ quote) :
    Reached .string [quote] (c :: s) front ↔
      ∃ inner, front = [c] ++ inner ∧ Reached .string [quote] s inner := by
  constructor
  case mp =>
    rintro ⟨scanned, more, whole⟩
    cases scanned with
    | nil => exact absurd (List.cons.inj whole).1.symm notQuote
    | plain _ _ scanned =>
      obtain ⟨rfl, behind⟩ := List.cons.inj whole
      exact ⟨_, rfl, scanned, more, behind⟩
    | escaped => exact absurd (List.cons.inj whole).1.symm notEscape
  case mpr =>
    rintro ⟨inner, rfl, scanned, more, behind⟩
    exact ⟨.plain notEscape (absurd · notLine) scanned, more, by simpa using behind⟩

theorem EndsByScan.prepend {unit : Text} (ends : EndsByScan quote .string taken rest)
    (passed : Scanned .string unit)
    (moves : ∀ front, Reached .string [quote] (unit ++ (taken ++ rest)) front ↔
      ∃ inner, front = unit ++ inner ∧ Reached .string [quote] (taken ++ rest) inner) :
    EndsByScan quote .string (unit ++ taken) rest := by
  cases ends with
  | closed first =>
    apply closed
    rw [List.append_assoc]
    exact first.prepend unit moves
  | unclosedLine none scanned stops =>
    refine unclosedLine ?_ (passed.append scanned) stops
    intro front reached
    rw [List.append_assoc] at reached
    obtain ⟨inner, rfl, before⟩ := (moves front).mp reached
    exact none inner before

theorem stringBody_endsByScan (notEscape : quote ≠ '\\')
    (whole : s = stringBody quote s ++ rest) :
    EndsByScan quote .string (stringBody quote s) rest := by
  fun_induction stringBody quote s with
  | case1 =>
    obtain rfl := whole
    refine .unclosedLine ?_ .nil (.inl rfl)
    rintro front ⟨-, more, whole⟩
    simp [quotes] at whole
  | case2 c s ih =>
    have behind : s = stringBody quote s ++ rest := (List.cons.inj (List.cons.inj whole).2).2
    refine (ih behind).prepend (.escaped c .nil) ?_
    intro front
    exact reached_escaped_iff notEscape
  | case3 s => exact .closed (endsAtFirst_here ⟨.nil, rest, rfl⟩ [quote])
  | case4 c s notPair notQuote stops =>
    obtain rfl : c :: s = rest := whole
    have stops : c = '\n' ∨ c = '\\' := by simpa using stops
    refine .unclosedLine ?_ .nil ?_
    · rintro front ⟨scanned, more, whole⟩
      cases scanned with
      | nil => exact notQuote (List.cons.inj whole).1.symm
      | plain notEscape line =>
        obtain ⟨rfl, -⟩ := List.cons.inj whole
        rcases stops with rfl | rfl
        · cases line rfl
        · exact notEscape rfl
      | escaped d =>
        obtain ⟨rfl, behind⟩ := List.cons.inj whole
        exact notPair d _ rfl behind.symm
    · rcases stops with rfl | rfl
      · exact .inr (.inl rfl)
      · cases s with
        | nil => exact .inr (.inr rfl)
        | cons d s => exact absurd rfl (notPair d s rfl)
  | case5 c s notPair notQuote goesOn ih =>
    have plain : c ≠ '\n' ∧ c ≠ '\\' := by simpa using goesOn
    have behind : s = stringBody quote s ++ rest := (List.cons.inj whole).2
    have passed : Scanned .string [c] := .plain plain.2 (absurd · plain.1) .nil
    refine (ih behind).prepend passed ?_
    intro front
    exact reached_plain_iff plain.2 plain.1 notQuote

theorem occurs_cons_iff (notHere : ¬ mark <+: c :: s) :
    Occurs mark (c :: s) front ↔ ∃ inner, front = [c] ++ inner ∧ Occurs mark s inner := by
  constructor
  case mp =>
    rintro ⟨more, whole⟩
    cases front with
    | nil => exact absurd ⟨more, whole⟩ notHere
    | cons d front =>
      obtain ⟨rfl, behind⟩ := List.cons.inj whole
      exact ⟨front, rfl, more, behind⟩
  case mpr =>
    rintro ⟨inner, rfl, more, behind⟩
    exact ⟨more, by simpa using behind⟩

theorem tripleBody_endsAtQuotes (whole : s = tripleBody quote s ++ rest) :
    EndsAtQuotes quote (tripleBody quote s) rest := by
  fun_induction tripleBody quote s with
  | case1 =>
    obtain rfl := whole
    refine .inr ⟨?_, rfl⟩
    rintro front ⟨more, whole⟩
    simp [quotes] at whole
  | case2 c s closes => exact .inl (endsAtFirst_here ⟨rest, rfl⟩ _)
  | case3 c s goesOn ih =>
    have behind : s = tripleBody quote s ++ rest := (List.cons.inj whole).2
    have notHere : ¬ quotes .tripleString quote <+: c :: s := by
      rintro ⟨more, whole⟩
      obtain ⟨rfl, rfl⟩ := List.cons.inj whole
      simp at goesOn
    have moves (front : Text) : Occurs (quotes .tripleString quote) (c :: s) front ↔
        ∃ inner, front = [c] ++ inner ∧ Occurs (quotes .tripleString quote) s inner :=
      occurs_cons_iff notHere
    rcases ih behind with first | ⟨none, rfl⟩
    · left
      rw [List.cons_append, ← behind]
      rw [← behind] at first
      exact first.prepend [c] moves
    · rw [List.append_nil] at behind
      refine .inr ⟨?_, rfl⟩
      intro front occurs
      rw [← behind] at occurs none
      obtain ⟨inner, rfl, before⟩ := (moves front).mp occurs
      exact none inner before

/-- A string that ends at the first three quotes in a row ends where the scan does exactly if these
are not escaped, or nothing is behind it. -/
theorem EndsAtQuotes.endsByScan_iff (ends : EndsAtQuotes quote taken rest) :
    EndsByScan quote .tripleString taken rest ↔ rest = [] ∨
      ∃ front, taken = front ++ quotes .tripleString quote ∧ Even (lastBackslashes front) := by
  constructor
  case mp =>
    intro byScan
    cases byScan with
    | closed first =>
      obtain ⟨front, rfl, reached, -⟩ := first
      exact .inr ⟨front, rfl, scanned_iff_even.mp reached.scanned⟩
    | unclosed => exact .inl rfl
  case mpr =>
    rcases ends with ⟨front, rfl, here, least⟩ | ⟨none, rfl⟩
    case inr =>
      intro _
      exact .unclosed fun front reached => none front reached.occurs
    rintro (rfl | ⟨other, same, even⟩)
    · by_cases passed : Scanned .tripleString front
      · exact .closed ⟨front, rfl, ⟨passed, here⟩, fun other reached => least other reached.occurs⟩
      -- Nothing is behind the quotes, so they have no later place that the scan could come to.
      · refine .unclosed fun other reached => passed ?_
        have occurs : other ++ quotes .tripleString quote <+: front ++ quotes .tripleString quote :=
          reached.occurs
        rw [List.append_nil] at least
        have after := least other occurs
        have shorter := occurs.length_le
        simp only [List.length_append] at shorter
        have same := occurs.eq_of_length (by simp only [List.length_append]; omega)
        exact List.append_cancel_right same ▸ reached.scanned
    · obtain rfl := List.append_cancel_right same
      refine .closed ⟨front, rfl, ⟨scanned_iff_even.mpr even, here⟩, ?_⟩
      exact fun other reached => least other reached.occurs

/-- The token's text is at most two letters, the opening quotes of its kind and then `taken`. -/
structure Opens (token : Token) (quote : Char) (taken : Text) : Prop where
  isQuote : isQuote quote = true
  split : ∃ letters : Text, letters.length ≤ 2 ∧ (∀ c ∈ letters, isStringLetter c = true) ∧
    token.text = letters ++ (quotes token.kind quote ++ taken)

/-- The letters end in front of the quote, so a text opens in one way only. -/
theorem Opens.dropWhile_eq (opens : Opens token quote taken) :
    token.text.dropWhile isStringLetter = quotes token.kind quote ++ taken := by
  obtain ⟨isQuote, letters, -, areLetters, split⟩ := opens
  have stops : (quotes token.kind quote ++ taken).dropWhile isStringLetter =
      quotes token.kind quote ++ taken := by
    cases token.kind <;> simp [quotes, isStringLetter_eq_false_of_isQuote isQuote]
  rw [split, List.dropWhile_append_of_pos areLetters, stops]

theorem first?_behind (part : PartOf source token) :
    first? (token.text ++ source.dropBytes token.stop) = some (token.kind, token.text) := by
  obtain ⟨before, rest, rfl, place, found⟩ := part
  have behind : Text.dropBytes token.stop (before ++ (token.text ++ rest)) = rest := by
    rw [← List.append_assoc, stop_eq place, Text.dropBytes_append]
  rw [behind]
  exact found

/-- A string token is what its scanner takes: letters, quotes and the body behind these. -/
theorem exists_opens {scan : Scanner} {body : Char → Scanner} (isKind : token.kind = kind)
    (only : ∀ other, (kind, other) ∈ scanners → other = scan)
    (cases : ∀ s, scan s = [] ∨ ∃ quote tail, isQuote quote = true ∧
      s = stringLetters s ++ (quotes kind quote ++ tail) ∧
      scan s = stringLetters s ++ (quotes kind quote ++ body quote tail))
    (found : first? (token.text ++ rest) = some (token.kind, token.text)) :
    ∃ quote tail, isQuote quote = true ∧ Opens token quote (body quote tail) ∧
      tail = body quote tail ++ rest := by
  subst isKind
  obtain ⟨other, isScanner, takes, nonempty⟩ := exists_scanner_of_first? found
  obtain rfl := only other isScanner
  rcases cases (token.text ++ rest) with none | ⟨quote, tail, isQuote, split, taken⟩
  · exact absurd (takes.symm.trans none) nonempty
  rw [takes] at taken
  generalize letters : stringLetters (token.text ++ rest) = front at split taken
  have few : front.length ≤ 2 := by
    rw [← letters]
    exact (List.takeWhile_prefix _).length_le.trans (List.length_take_le 2 _)
  have areLetters : ∀ c ∈ front, isStringLetter c = true := by
    rw [← letters]
    exact fun c mem => List.mem_takeWhile_imp mem
  refine ⟨quote, tail, isQuote, ⟨isQuote, front, few, areLetters, taken⟩, ?_⟩
  rw [taken, List.append_assoc, List.append_assoc] at split
  exact (List.append_cancel_left (List.append_cancel_left split)).symm

theorem endsByScan_of_first? (isString : token.kind = .string)
    (found : first? (token.text ++ rest) = some (token.kind, token.text)) :
    ∃ quote taken, Opens token quote taken ∧ EndsByScan quote .string taken rest := by
  obtain ⟨quote, tail, isQuote, opens, behind⟩ :=
    exists_opens isString (by simp [scanners]) string_cases found
  exact ⟨quote, _, opens, stringBody_endsByScan (ne_backslash_of_isQuote isQuote) behind⟩

theorem endsAtQuotes_of_first? (isTriple : token.kind = .tripleString)
    (found : first? (token.text ++ rest) = some (token.kind, token.text)) :
    ∃ quote taken, Opens token quote taken ∧ EndsAtQuotes quote taken rest := by
  obtain ⟨quote, tail, -, opens, behind⟩ :=
    exists_opens isTriple (by simp [scanners]) tripleString_cases found
  exact ⟨quote, _, opens, tripleBody_endsAtQuotes behind⟩

/-- A string with one quote ends where a scan comes to that quote, and an unclosed one at the end of
its line. A string with three quotes ends at the first three quotes in a row, escaped or not; this
is where the scan ends exactly if the number of backslashes in front of them is even, or nothing is
behind them. -/
theorem ends_of_string (mem : token ∈ tokenize source)
    (isString : token.kind = .string ∨ token.kind = .tripleString) :
    ∃ quote taken, Opens token quote taken ∧
      source.slice token.start token.stop = token.text ∧
      (token.kind = .string → EndsByScan quote .string taken (source.dropBytes token.stop)) ∧
      (token.kind = .tripleString →
        EndsAtQuotes quote taken (source.dropBytes token.stop) ∧
          (EndsByScan quote .tripleString taken (source.dropBytes token.stop) ↔
            source.dropBytes token.stop = [] ∨
              ∃ front, taken = front ++ quotes .tripleString quote ∧
                Even (lastBackslashes front))) := by
  have part := partOf_tokenize mem
  have found := first?_behind part
  rcases isString with isSingle | isTriple
  · obtain ⟨quote, taken, opens, ends⟩ := endsByScan_of_first? isSingle found
    refine ⟨quote, taken, opens, part.slice_eq, fun _ => ends, fun isTriple => ?_⟩
    cases isSingle.symm.trans isTriple
  · obtain ⟨quote, taken, opens, ends⟩ := endsAtQuotes_of_first? isTriple found
    refine ⟨quote, taken, opens, part.slice_eq, fun isSingle => ?_,
      fun _ => ⟨ends, ends.endsByScan_iff⟩⟩
    cases isSingle.symm.trans isTriple

/-- A string whose first three quotes in a row begin with an escaped one. -/
def escapedSource : Text := "\"\"\"a\\\"\"\"b\"\"\"".toList

def escapedToken : Token := ⟨.tripleString, .start, "\"\"\"a\\\"\"\"".toList⟩

theorem opens_escapedToken (opens : Opens escapedToken quote taken) :
    quote = '"' ∧ taken = "a\\\"\"\"".toList := by
  have text : '"' :: '"' :: '"' :: "a\\\"\"\"".toList = quote :: quote :: quote :: taken :=
    opens.dropWhile_eq
  obtain ⟨same, behind⟩ := List.cons.inj text
  exact ⟨same.symm, (List.cons.inj (List.cons.inj behind).2).2.symm⟩

theorem ends_of_string_escaped :
    escapedToken ∈ tokenize escapedSource ∧
      (escapedToken.kind = .string ∨ escapedToken.kind = .tripleString) ∧
      EndsAtQuotes '"' "a\\\"\"\"".toList (escapedSource.dropBytes escapedToken.stop) ∧
      ¬ EndsByScan '"' .tripleString "a\\\"\"\"".toList
        (escapedSource.dropBytes escapedToken.stop) := by
  have mem : escapedToken ∈ tokenize escapedSource := by decide +kernel
  have isString : escapedToken.kind = .string ∨ escapedToken.kind = .tripleString := .inr rfl
  obtain ⟨quote, taken, opens, -, -, ends⟩ := ends_of_string mem isString
  obtain ⟨rfl, rfl⟩ := opens_escapedToken opens
  refine ⟨mem, isString, (ends rfl).1, ?_⟩
  rw [(ends rfl).2]
  rintro (none | ⟨front, split, even⟩)
  · exact absurd none (by decide +kernel)
  · have same : ['a', '\\'] ++ quotes .tripleString '"' = front ++ quotes .tripleString '"' := split
    obtain rfl := List.append_cancel_right same
    exact absurd even (by decide)

/-- The quotes behind the backslash end the string, though the scan goes on to the last three. -/
theorem not_endsByScan_escaped :
    escapedToken ∈ tokenize escapedSource ∧ escapedToken.kind = .tripleString ∧
      ∀ quote taken, Opens escapedToken quote taken →
        ¬ EndsByScan quote .tripleString taken (escapedSource.dropBytes escapedToken.stop) := by
  refine ⟨by decide +kernel, rfl, ?_⟩
  intro quote taken opens ends
  obtain ⟨rfl, rfl⟩ := opens_escapedToken opens
  have behind : escapedSource.dropBytes escapedToken.stop = "b\"\"\"".toList := by decide +kernel
  rw [behind] at ends
  cases ends with
  | closed first =>
    obtain ⟨front, split, reached, -⟩ := first
    have same : ['a', '\\'] ++ quotes .tripleString '"' = front ++ quotes .tripleString '"' := split
    obtain rfl := List.append_cancel_right same
    have passed : Scanned .tripleString ['a'] := .plain (by decide) (fun _ => rfl) .nil
    exact passed.not_lone reached.scanned

end Hyperlisting.Token
