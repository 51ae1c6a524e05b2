import Hyperlisting.Proofs.Token.Order
import Hyperlisting.Proofs.Token.Start

/-! Tokens cover their text. A character that stands in none of them is one at which no token
starts, and no name is a part of a longer word unless a number ends in front of it. -/

namespace Hyperlisting.Token

open Unicode

variable {source before rest : Text} {tokens : List Token}

/-- The place with so many bytes before it stands in the token. -/
def Contains (token : Token) (offset : Nat) : Prop :=
  token.start ≤ offset ∧ offset < token.stop

/-- What stands in no token was passed over. -/
theorem Reads.passedOver (reads : Reads before rest tokens) {front back : Text} {c : Char}
    (split : rest = front ++ c :: back)
    (outside : ∀ token ∈ tokens, ¬ token.Contains (before ++ front).byteSize) :
    PassedOver c back := by
  induction reads generalizing front with
  | done => simp at split
  | pass none _ ih =>
    cases front with
    | nil =>
      obtain ⟨rfl, rfl⟩ := List.cons.inj split
      exact first?_eq_none_iff.mp none
    | cons d front =>
      obtain ⟨rfl, behind⟩ := List.cons.inj split
      exact ih behind (by simpa using outside)
  | @read before text rest kind tokens _ _ ih =>
    obtain ⟨notHere, outside⟩ := List.forall_mem_cons.mp outside
    have later {more : Text} (whole : front = text ++ more) (behind : rest = more ++ c :: back) :
        PassedOver c back := by
      refine ih behind ?_
      rwa [List.append_assoc, ← whole]
    rcases List.append_eq_append_iff.mp split with ⟨more, whole, behind⟩ | ⟨taken, whole, behind⟩
    · exact later whole behind
    · cases taken with
      | nil =>
        have here : rest = [] ++ c :: back := behind.symm
        exact later (by simpa using whole.symm) here
      | cons d taken =>
        refine absurd ?_ notHere
        have positive := d.utf8Size_pos
        rw [Contains, start_eq rfl, stop_eq rfl, whole]
        simp only [Text.byteSize_append, Text.byteSize_cons]
        omega

/-- Where a token starts between two word characters, a number ends. -/
theorem Reads.number_before (reads : Reads before rest tokens) :
    ∀ token ∈ tokens, ∃ front back, rest = front ++ (token.text ++ back) ∧
      token.start = (before ++ front).byteSize ∧
      ∀ c ∈ front.getLast?, isWord c = true → ∀ d ∈ token.text.head?, isWord d = true →
        ∃ number ∈ tokens, number.kind = .number ∧ number.stop = token.start := by
  induction reads with
  | done => exact fun token none => absurd none List.not_mem_nil
  | @pass before rest first tokens none _ ih =>
    intro token mem
    obtain ⟨front, back, rfl, start, number⟩ := ih token mem
    refine ⟨first :: front, back, rfl, by simpa using start, ?_⟩
    intro c last word
    cases front with
    | nil =>
      obtain rfl : first = c := by simpa using last
      have notWord := (first?_eq_none_iff.mp none).notWord
      exact absurd word (by simp [notWord])
    | cons second front => exact number c (by simpa using last) word
  | @read before text rest kind tokens found _ ih =>
    refine List.forall_mem_cons.mpr ⟨⟨[], rest, rfl, by simp [Token.start], by simp⟩, ?_⟩
    intro token mem
    obtain ⟨front, back, rfl, start, number⟩ := ih token mem
    refine ⟨text ++ front, back, by simp, by simpa using start, ?_⟩
    intro c last word d head nextWord
    cases front with
    | nil =>
      obtain ⟨tail, starts⟩ := List.head?_eq_some_iff.mp head
      rw [List.nil_append, starts, List.cons_append] at found
      rw [List.append_nil] at last
      refine ⟨_, List.mem_cons_self, kind_eq_number_of_first? found last word nextWord, ?_⟩
      rw [start, stop_eq rfl, List.append_nil]
    | cons second front =>
      obtain ⟨other, otherMem, ends⟩ := number c (by simpa using last) word d head nextWord
      exact ⟨other, List.mem_cons_of_mem _ otherMem, ends⟩

/-- Tokens that miss nothing in a text and split no name. -/
structure Cover (source : Text) (tokens : List Token) : Prop where
  nonempty : ∀ token ∈ tokens, token.start < token.stop
  onBoundaries : ∀ token ∈ tokens,
    source.isBoundary token.start = true ∧ source.isBoundary token.stop = true
  cutOut : ∀ token ∈ tokens, source.slice token.start token.stop = token.text
  ascending : tokens.Pairwise (·.stop ≤ ·.start)
  outside : ∀ (before : Text) (c : Char) (rest : Text), source = before ++ c :: rest →
    (∀ token ∈ tokens, ¬ token.Contains before.byteSize) → PassedOver c rest
  unextended : ∀ token ∈ tokens, token.kind = .name →
    ∀ c ∈ (source.dropBytes token.stop).head?, isWord c = false
  unsplit : ∀ token ∈ tokens, token.kind = .name →
    ∀ c ∈ (source.takeBytes token.start).getLast?, isWord c = true →
      ∃ number ∈ tokens, number.kind = .number ∧ number.stop = token.start

/-- The tokens of a text lie in it one behind the other, and between them stands nothing that starts
a token. A name has all word characters from its start on, and more before it only if they end a
number. -/
theorem cover_tokenize (source : Text) : Cover source (tokenize source) where
  nonempty _ mem := (partOf_tokenize mem).start_lt_stop
  onBoundaries _ mem := (partOf_tokenize mem).isBoundary
  cutOut _ mem := (partOf_tokenize mem).slice_eq
  ascending := (pairwise_tokenize source).imp Precedes.stop_le_start
  outside _ _ _ split outside := (reads_tokenize source).passedOver split outside
  unextended token mem named c next := by
    obtain ⟨before, rest, rfl, place, found⟩ := partOf_tokenize mem
    rw [stop_eq place, ← List.append_assoc, Text.dropBytes_append] at next
    obtain ⟨back, rfl⟩ := List.head?_eq_some_iff.mp next
    rw [named] at found
    exact isWord_eq_false_of_first?_name found
  unsplit token mem named c last word := by
    obtain ⟨front, back, whole, start, number⟩ := (reads_tokenize source).number_before token mem
    have isName := (partOf_tokenize mem).isName named
    obtain ⟨d, tail, starts⟩ := List.exists_cons_of_ne_nil isName.ne_nil
    rw [List.nil_append] at start
    rw [whole, start, Text.takeBytes_append] at last
    exact number c last word d (by rw [starts]; rfl) (isName.word d (by simp [starts]))

end Hyperlisting.Token
