import Mathlib.Data.List.Basic
import Hyperlisting.Run
import Hyperlisting.Proofs.Text
import Hyperlisting.Proofs.Token.Scan

/-! Tokens in their text. Each is a part of the text at the place that it has, and what stands
before a token ends before the token starts. -/

namespace Hyperlisting.Token

/-- Tokens are read from what follows `before`: at each place the first token that the rest starts
with, and where it starts with none a character is passed over. -/
inductive Reads : (before rest : Text) → List Token → Prop
  | done {before : Text} : Reads before [] []
  | pass {before rest : Text} {c : Char} {tokens : List Token} : first? (c :: rest) = none →
      Reads (before ++ [c]) rest tokens → Reads before (c :: rest) tokens
  | read {before text rest : Text} {kind : TokenKind} {tokens : List Token} :
      first? (text ++ rest) = some (kind, text) → Reads (before ++ text) rest tokens →
      Reads before (text ++ rest) (⟨kind, Place.after before, text⟩ :: tokens)

variable {source before rest : Text} {tokens : List Token} {token other : Token}

theorem start_eq (place : token.place = Place.after before) : token.start = before.byteSize := by
  rw [start, place, Place.offset_after]

theorem stop_eq (place : token.place = Place.after before) :
    token.stop = (before ++ token.text).byteSize := by
  rw [stop, start_eq place, Text.byteSize_append]

/-- What belongs to a token already read only moves the place. -/
theorem tokensFrom_append (place : Place) (taken rest : Text) :
    tokensFrom taken.length place (taken ++ rest) =
      tokensFrom 0 (taken.foldl Place.next place) rest := by
  induction taken generalizing place with
  | nil => rfl
  | cons c taken ih => exact ih (place.next c)

theorem tokensFrom_of_first?_eq_none {c : Char} (none : first? (c :: rest) = none)
    (before : Text) :
    tokensFrom 0 (Place.after before) (c :: rest) =
      tokensFrom 0 (Place.after (before ++ [c])) rest := by
  rw [tokensFrom, none, Place.after, Place.after, List.foldl_append]
  rfl

theorem tokensFrom_of_first?_eq_some {kind : TokenKind} {text : Text}
    (found : first? (text ++ rest) = some (kind, text)) (before : Text) :
    tokensFrom 0 (Place.after before) (text ++ rest) =
      ⟨kind, Place.after before, text⟩ :: tokensFrom 0 (Place.after (before ++ text)) rest := by
  obtain ⟨c, taken, rfl⟩ := List.exists_cons_of_ne_nil (ne_nil_of_first? found)
  rw [List.cons_append] at found ⊢
  rw [tokensFrom, found, Place.after, Place.after, List.foldl_append]
  exact congrArg _ (tokensFrom_append _ taken rest)

theorem reads_tokensFrom (before rest : Text) :
    Reads before rest (tokensFrom 0 (Place.after before) rest) := by
  induction size : rest.length using Nat.strongRecOn generalizing before rest with
  | _ n ih =>
    cases rest with
    | nil => exact .done
    | cons c rest =>
      cases found : first? (c :: rest) with
      | none =>
        rw [tokensFrom_of_first?_eq_none found]
        exact .pass found (ih rest.length (by simp [← size]) _ rest rfl)
      | some token =>
        obtain ⟨kind, text⟩ := token
        obtain ⟨after, equal⟩ := prefix_of_first? found
        have nonempty := List.length_pos_of_ne_nil (ne_nil_of_first? found)
        rw [← equal] at found size ⊢
        rw [List.length_append] at size
        rw [tokensFrom_of_first?_eq_some found]
        exact .read found (ih after.length (by omega) _ after rfl)

/-- Only one list of tokens is read from a text. -/
theorem Reads.eq_tokensFrom (reads : Reads before rest tokens) :
    tokens = tokensFrom 0 (Place.after before) rest := by
  induction reads with
  | done => rfl
  | pass none _ ih => rw [tokensFrom_of_first?_eq_none none, ← ih]
  | read found _ ih => rw [tokensFrom_of_first?_eq_some found, ← ih]

theorem reads_tokenize (source : Text) : Reads [] source (tokenize source) :=
  reads_tokensFrom [] source

/-- The token is a part of the text, at its place. -/
def PartOf (source : Text) (token : Token) : Prop :=
  ∃ before rest, source = before ++ (token.text ++ rest) ∧ token.place = Place.after before ∧
    first? (token.text ++ rest) = some (token.kind, token.text)

/-- One token ends before another starts. -/
def Precedes (token other : Token) : Prop :=
  ∃ before between, token.place = Place.after before ∧
    other.place = Place.after (before ++ (token.text ++ between))

theorem Reads.partOf (reads : Reads before rest tokens) :
    ∀ token ∈ tokens, PartOf (before ++ rest) token := by
  induction reads with
  | done => exact fun token none => absurd none List.not_mem_nil
  | pass _ _ ih => simpa using ih
  | read found _ ih =>
    refine List.forall_mem_cons.mpr ⟨⟨_, _, rfl, rfl, found⟩, ?_⟩
    simpa using ih

theorem Reads.place_after (reads : Reads before rest tokens) :
    ∀ token ∈ tokens, ∃ between, token.place = Place.after (before ++ between) := by
  induction reads with
  | done => exact fun token none => absurd none List.not_mem_nil
  | pass _ _ ih =>
    intro token mem
    obtain ⟨between, place⟩ := ih token mem
    exact ⟨_, by rw [place, List.append_assoc]⟩
  | read _ _ ih =>
    refine List.forall_mem_cons.mpr ⟨⟨[], by simp⟩, ?_⟩
    intro token mem
    obtain ⟨between, place⟩ := ih token mem
    exact ⟨_, by rw [place, List.append_assoc]⟩

theorem Reads.pairwise (reads : Reads before rest tokens) : tokens.Pairwise Precedes := by
  induction reads with
  | done => exact .nil
  | pass _ _ ih => exact ih
  | @read before text rest kind tokens found later ih =>
    refine List.pairwise_cons.mpr ⟨?_, ih⟩
    intro other mem
    obtain ⟨between, place⟩ := later.place_after other mem
    exact ⟨before, between, rfl, by rw [place, List.append_assoc]⟩

theorem partOf_tokenize (mem : token ∈ tokenize source) : PartOf source token := by
  simpa using (reads_tokenize source).partOf token mem

theorem pairwise_tokenize (source : Text) : (tokenize source).Pairwise Precedes :=
  (reads_tokenize source).pairwise

namespace PartOf

variable (part : PartOf source token)

include part

theorem ne_nil : token.text ≠ [] := by
  obtain ⟨_, _, _, _, found⟩ := part
  exact ne_nil_of_first? found

theorem start_lt_stop : token.start < token.stop :=
  Nat.lt_add_of_pos_right (Text.byteSize_pos part.ne_nil)

theorem isName (named : token.kind = .name) : IsName token.text := by
  obtain ⟨_, _, _, _, found⟩ := part
  rw [named] at found
  exact isName_of_first? found

theorem slice_eq : source.slice token.start token.stop = token.text := by
  obtain ⟨before, rest, rfl, place, _⟩ := part
  rw [start_eq place, stop_eq place, Text.slice_append]

theorem isBoundary :
    source.isBoundary token.start = true ∧ source.isBoundary token.stop = true := by
  obtain ⟨before, rest, rfl, place, _⟩ := part
  have atStart := Text.isBoundary_append before (token.text ++ rest)
  have atStop := Text.isBoundary_append (before ++ token.text) rest
  rw [List.append_assoc] at atStop
  exact ⟨start_eq place ▸ atStart, stop_eq place ▸ atStop⟩

theorem stop_le : token.stop ≤ source.byteSize := by
  obtain ⟨before, rest, rfl, place, _⟩ := part
  rw [stop_eq place]
  simp only [Text.byteSize_append]
  omega

/-- A run over a token fits the text. -/
theorem check_eq_ok {run : Run} (start : run.start = token.start) (stop : run.stop = token.stop) :
    run.check source = .ok () := by
  rw [Run.check_eq_ok_iff, start, stop]
  exact ⟨Nat.le_of_lt part.start_lt_stop, part.stop_le, part.isBoundary⟩

end PartOf

namespace Precedes

variable (first : Precedes token other)

include first

theorem stop_le_start : token.stop ≤ other.start := by
  obtain ⟨before, between, place, otherPlace⟩ := first
  rw [stop_eq place, start_eq otherPlace]
  simp only [Text.byteSize_append]
  omega

theorem line_le : token.place.line ≤ other.place.line := by
  obtain ⟨before, between, place, otherPlace⟩ := first
  rw [place, otherPlace]
  exact Place.line_le_after_append ..

/-- Behind a name no token of its line starts the line. -/
theorem not_startsLine (isName : IsName token.text)
    (sameLine : token.place.line = other.place.line) : other.place.startsLine = false := by
  obtain ⟨before, between, place, otherPlace⟩ := first
  obtain ⟨c, name, cons⟩ := List.exists_cons_of_ne_nil isName.ne_nil
  have mem : c ∈ token.text := by simp [cons]
  obtain ⟨blank, tab, _⟩ := isName.ne_of_mem mem
  rw [place, otherPlace] at sameLine
  rw [otherPlace]
  exact Place.startsLine_after_append (List.mem_append_left _ mem) ⟨blank, tab⟩ sameLine.symm

end Precedes

theorem precedes_irrefl (mem : token ∈ tokenize source) : ¬ Precedes token token := by
  intro first
  have nonempty := (partOf_tokenize mem).start_lt_stop
  have after := first.stop_le_start
  omega

theorem precedes_asymm (mem : token ∈ tokenize source) (otherMem : other ∈ tokenize source)
    (first : Precedes token other) : ¬ Precedes other token := by
  intro second
  have nonempty := (partOf_tokenize mem).start_lt_stop
  have otherNonempty := (partOf_tokenize otherMem).start_lt_stop
  have after := first.stop_le_start
  have otherAfter := second.stop_le_start
  omega

/-- Two tokens of a text are one, or one ends before the other starts. -/
theorem precedes_or_precedes (mem : token ∈ tokenize source) (otherMem : other ∈ tokenize source)
    (different : token ≠ other) : Precedes token other ∨ Precedes other token := by
  have ordered := List.pairwise_iff_getElem.mp (pairwise_tokenize source)
  obtain ⟨i, iBound, rfl⟩ := List.getElem_of_mem mem
  obtain ⟨j, jBound, rfl⟩ := List.getElem_of_mem otherMem
  rcases Nat.lt_trichotomy i j with less | rfl | more
  · exact .inl (ordered i j iBound jBound less)
  · exact absurd rfl different
  · exact .inr (ordered j i jBound iBound more)

/-- Tokens that share a byte are one token. -/
theorem eq_of_overlap (mem : token ∈ tokenize source) (otherMem : other ∈ tokenize source)
    (before : token.start < other.stop) (after : other.start < token.stop) : token = other := by
  by_contra different
  rcases precedes_or_precedes mem otherMem different with first | second
  · have := first.stop_le_start
    omega
  · have := second.stop_le_start
    omega

theorem eq_of_start_eq (mem : token ∈ tokenize source) (otherMem : other ∈ tokenize source)
    (same : token.start = other.start) : token = other := by
  have nonempty := (partOf_tokenize mem).start_lt_stop
  have otherNonempty := (partOf_tokenize otherMem).start_lt_stop
  exact eq_of_overlap mem otherMem (by omega) (by omega)

end Hyperlisting.Token
