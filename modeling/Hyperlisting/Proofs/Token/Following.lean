import Hyperlisting.Proofs.Token.Order
import Hyperlisting.Proofs.Token.Start

/-! What follows a token. The next token is the first one that starts in the text behind it, and the
characters in front of that are passed over. -/

namespace Hyperlisting.Token

variable {source before rest gap text : Text} {tokens earlier later : List Token} {token : Token}
  {kind : TokenKind} {c : Char}

/-- No token starts in the gap, which has `rest` behind it. -/
def Silent (rest : Text) : (gap : Text) → Prop
  | [] => True
  | c :: gap => PassedOver c (gap ++ rest) ∧ Silent rest gap

/-- The first token in the text is of the kind and has the text `text`. -/
def ComesFirst (kind : TokenKind) (text s : Text) : Prop :=
  ∃ gap rest, s = gap ++ (text ++ rest) ∧ Silent (text ++ rest) gap ∧
    first? (text ++ rest) = some (kind, text)

theorem not_comesFirst_nil : ¬ ComesFirst kind text [] := by
  rintro ⟨gap, rest, whole, -, found⟩
  obtain ⟨-, none⟩ := List.append_eq_nil_iff.mp whole.symm
  exact ne_nil_of_first? found (List.append_eq_nil_iff.mp none).1

theorem comesFirst_cons (passed : PassedOver c rest) :
    ComesFirst kind text (c :: rest) ↔ ComesFirst kind text rest := by
  constructor
  case mp =>
    rintro ⟨_ | ⟨_, gap⟩, more, whole, silent, found⟩
    · rw [List.nil_append] at whole
      rw [← whole, first?_eq_none_iff.mpr passed] at found
      cases found
    · obtain ⟨rfl, rfl⟩ := List.cons.inj whole
      exact ⟨gap, more, rfl, silent.2, found⟩
  case mpr =>
    rintro ⟨gap, more, rfl, silent, found⟩
    exact ⟨c :: gap, more, rfl, ⟨passed, silent⟩, found⟩

theorem comesFirst_iff_of_first? {s : Text} {other : TokenKind × Text}
    (found : first? s = some other) : ComesFirst kind text s ↔ other = (kind, text) := by
  constructor
  case mp =>
    rintro ⟨_ | ⟨c, gap⟩, rest, rfl, silent, foundText⟩
    · exact Option.some.inj (found.symm.trans foundText)
    · rw [List.cons_append, first?_eq_none_iff.mpr silent.1] at found
      cases found
  case mpr =>
    rintro rfl
    obtain ⟨rest, rfl⟩ := prefix_of_first? found
    exact ⟨[], rest, rfl, trivial, found⟩

theorem Reads.comesFirst_iff (reads : Reads before rest tokens) : ComesFirst kind text rest ↔
    ∃ next, tokens.head? = some next ∧ next.kind = kind ∧ next.text = text := by
  induction reads with
  | done => simp [not_comesFirst_nil]
  | pass none _ ih => rw [comesFirst_cons (first?_eq_none_iff.mp none), ih]
  | read found _ _ => simp [comesFirst_iff_of_first? found]

/-- The tokens behind a token are read from the text behind it. -/
theorem Reads.behind (reads : Reads before rest tokens)
    (split : tokens = earlier ++ token :: later) :
    ∃ front back, before ++ rest = front ++ token.text ++ back ∧ token.place = Place.after front ∧
      Reads (front ++ token.text) back later := by
  induction reads generalizing earlier with
  | done => simp at split
  | pass none _ ih => simpa using ih split
  | @read before text rest kind tokens found behind ih =>
    cases earlier with
    | nil =>
      obtain ⟨rfl, rfl⟩ := List.cons.inj split
      exact ⟨before, rest, by simp, rfl, behind⟩
    | cons _ earlier =>
      obtain ⟨-, rfl⟩ := List.cons.inj split
      simpa using ih rfl

/-- The token behind another one is the first one in the text behind that. -/
theorem comesFirst_dropBytes_iff (split : tokenize source = earlier ++ token :: later) :
    ComesFirst kind text (source.dropBytes token.stop) ↔
      ∃ next, later.head? = some next ∧ next.kind = kind ∧ next.text = text := by
  obtain ⟨front, back, whole, place, reads⟩ := (reads_tokenize source).behind split
  rw [List.nil_append] at whole
  rw [whole, stop_eq place, Text.dropBytes_append]
  exact reads.comesFirst_iff

end Hyperlisting.Token
