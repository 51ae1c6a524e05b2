import Hyperlisting.Token.Scan

/-! What scanners take: every one takes a leading part of its text, so the first token of a text is
a leading part too. A name is a run of word characters. -/

namespace Hyperlisting.Token

open Unicode

namespace Scanner

/-- What the scanner takes stands at the start of the text. -/
def TakesPrefix (scan : Scanner) : Prop := ∀ s, scan s <+: s

theorem append_prefix {first second s : Text} (taken : first <+: s)
    (after : second <+: s.drop first.length) : first ++ second <+: s := by
  obtain ⟨rest, rfl⟩ := taken
  rw [List.drop_left] at after
  exact (List.prefix_append_right_inj first).mpr after

theorem andThen_takesPrefix {first second : Scanner} (takes : first.TakesPrefix)
    (takesAfter : second.TakesPrefix) : (first.andThen second).TakesPrefix :=
  fun s => append_prefix (takes s) (takesAfter _)

theorem orElse_takesPrefix {first second : Scanner} (takes : first.TakesPrefix)
    (takesElse : second.TakesPrefix) : (first.orElse second).TakesPrefix := by
  intro s
  unfold orElse
  split
  · exact takesElse s
  · rename_i equal
    exact takes s

theorem takeWhile_takesPrefix (p : Char → Bool) : TakesPrefix (·.takeWhile p) :=
  fun _ => List.takeWhile_prefix p

theorem takeWhile_take_takesPrefix (n : Nat) (p : Char → Bool) :
    TakesPrefix fun s => (s.take n).takeWhile p :=
  fun s => (List.takeWhile_prefix p).trans (List.take_prefix n s)

end Scanner

open Scanner

theorem cons_takeWhile_prefix (c : Char) (s : Text) (p : Char → Bool) :
    c :: s.takeWhile p <+: c :: s :=
  List.cons_prefix_cons.mpr ⟨rfl, List.takeWhile_prefix p⟩

theorem stringLetters_takesPrefix : TakesPrefix stringLetters := takeWhile_take_takesPrefix 2 _

theorem tripleBody_takesPrefix (quote : Char) : TakesPrefix (tripleBody quote) := by
  intro s
  fun_induction tripleBody quote s with
  | case1 => exact List.prefix_refl _
  | case2 c s closes =>
    simp only [Bool.and_eq_true, decide_eq_true_eq] at closes
    obtain ⟨rfl, quotes⟩ := closes
    have rest := List.take_prefix 2 s
    rw [quotes] at rest
    exact List.cons_prefix_cons.mpr ⟨rfl, rest⟩
  | case3 c s other ih => exact List.cons_prefix_cons.mpr ⟨rfl, ih⟩

theorem stringBody_takesPrefix (quote : Char) : TakesPrefix (stringBody quote) := by
  intro s
  fun_induction stringBody quote s with
  | case1 => exact List.prefix_refl _
  | case2 c s ih => simpa using ih
  | case3 s => simp
  | case4 c s => exact List.nil_prefix
  | case5 c s _ _ _ ih => exact List.cons_prefix_cons.mpr ⟨rfl, ih⟩

theorem tripleString_takesPrefix : TakesPrefix tripleString := by
  intro s
  unfold tripleString
  dsimp only
  split
  · rename_i first second third body opening
    split
    · rename_i quotes
      simp only [Bool.and_eq_true, decide_eq_true_eq] at quotes
      obtain ⟨⟨_, rfl⟩, rfl⟩ := quotes
      apply append_prefix (stringLetters_takesPrefix s)
      rw [opening]
      simpa using tripleBody_takesPrefix _ body
    · exact List.nil_prefix
  · exact List.nil_prefix

theorem string_takesPrefix : TakesPrefix string := by
  intro s
  unfold string
  dsimp only
  split
  · rename_i quote body opening
    split
    · apply append_prefix (stringLetters_takesPrefix s)
      rw [opening]
      exact List.cons_prefix_cons.mpr ⟨rfl, stringBody_takesPrefix quote body⟩
    · exact List.nil_prefix
  · exact List.nil_prefix

theorem comment_takesPrefix : TakesPrefix comment := by
  intro s
  unfold comment
  split
  · exact cons_takeWhile_prefix ..
  · exact List.nil_prefix

theorem decorator_takesPrefix : TakesPrefix decorator := by
  intro s
  unfold decorator
  split
  · split
    · exact List.cons_prefix_cons.mpr ⟨rfl, cons_takeWhile_prefix ..⟩
    · exact List.nil_prefix
  · exact List.nil_prefix

theorem radixNumber_takesPrefix : TakesPrefix radixNumber := by
  intro s
  unfold radixNumber
  split
  · dsimp only
    split
    · exact List.cons_prefix_cons.mpr ⟨rfl, cons_takeWhile_prefix ..⟩
    · exact List.nil_prefix
  · exact List.nil_prefix

theorem fraction_takesPrefix : TakesPrefix fraction := by
  intro s
  unfold fraction
  split
  · exact cons_takeWhile_prefix ..
  · exact List.nil_prefix

theorem exponent_takesPrefix : TakesPrefix exponent := by
  intro s
  unfold exponent
  split
  · dsimp only
    split
    · refine List.cons_prefix_cons.mpr ⟨rfl, ?_⟩
      exact append_prefix (takeWhile_take_takesPrefix 1 _ _) (List.takeWhile_prefix _)
    · exact List.nil_prefix
  · exact List.nil_prefix

/-- The digits, the power and the unit that may follow a digit or a point with a digit. -/
theorem power_takesPrefix : TakesPrefix (exponent.andThen imaginaryUnit) :=
  andThen_takesPrefix exponent_takesPrefix (takeWhile_take_takesPrefix 1 _)

theorem decimalNumber_takesPrefix : TakesPrefix decimalNumber := by
  intro s
  unfold decimalNumber
  split
  · split
    · refine List.cons_prefix_cons.mpr ⟨rfl, ?_⟩
      exact andThen_takesPrefix (takeWhile_takesPrefix _)
        (andThen_takesPrefix fraction_takesPrefix power_takesPrefix) _
    · exact List.nil_prefix
  · exact List.nil_prefix

theorem pointNumber_takesPrefix : TakesPrefix pointNumber := by
  intro s
  unfold pointNumber
  split
  · split
    · refine List.cons_prefix_cons.mpr ⟨rfl, List.cons_prefix_cons.mpr ⟨rfl, ?_⟩⟩
      exact andThen_takesPrefix (takeWhile_takesPrefix _) power_takesPrefix _
    · exact List.nil_prefix
  · exact List.nil_prefix

theorem number_takesPrefix : TakesPrefix number :=
  orElse_takesPrefix radixNumber_takesPrefix
    (orElse_takesPrefix decimalNumber_takesPrefix pointNumber_takesPrefix)

theorem name_takesPrefix : TakesPrefix name := by
  intro s
  unfold name
  split
  · split
    · exact cons_takeWhile_prefix ..
    · exact List.nil_prefix
  · exact List.nil_prefix

theorem scanners_takePrefix : ∀ scanner ∈ scanners, scanner.2.TakesPrefix := by
  intro scanner mem
  simp only [scanners, List.mem_cons, List.not_mem_nil, or_false] at mem
  rcases mem with rfl | rfl | rfl | rfl | rfl | rfl | rfl
  · exact tripleString_takesPrefix
  · exact string_takesPrefix
  · exact comment_takesPrefix
  · exact decorator_takesPrefix
  · exact number_takesPrefix
  · exact name_takesPrefix
  · exact takeWhile_takesPrefix _

variable {s text : Text} {kind : TokenKind}

theorem exists_scanner_of_first? (found : first? s = some (kind, text)) :
    ∃ scan, (kind, scan) ∈ scanners ∧ scan s = text ∧ text ≠ [] := by
  obtain ⟨⟨scanned, scan⟩, mem, takes⟩ := List.exists_of_findSome?_eq_some found
  dsimp only at takes
  split at takes
  · cases takes
  · rename_i nonempty
    obtain ⟨rfl, rfl⟩ := Prod.mk.inj (Option.some.inj takes)
    exact ⟨scan, mem, rfl, fun empty => nonempty empty⟩

theorem ne_nil_of_first? (found : first? s = some (kind, text)) : text ≠ [] := by
  obtain ⟨_, _, _, nonempty⟩ := exists_scanner_of_first? found
  exact nonempty

theorem prefix_of_first? (found : first? s = some (kind, text)) : text <+: s := by
  obtain ⟨scan, mem, rfl, _⟩ := exists_scanner_of_first? found
  exact scanners_takePrefix _ mem s

/-- A name is made of word characters. -/
structure IsName (text : Text) : Prop where
  ne_nil : text ≠ []
  word : ∀ c ∈ text, isWord c = true

theorem isName_of_first? (found : first? s = some (.name, text)) : IsName text := by
  obtain ⟨scan, mem, rfl, nonempty⟩ := exists_scanner_of_first? found
  obtain rfl : scan = name := by simpa [scanners] using mem
  refine ⟨nonempty, ?_⟩
  cases s with
  | nil => exact absurd rfl nonempty
  | cons c s =>
    rw [name] at nonempty ⊢
    split
    · rename_i starts
      simp only [isWordStart, Bool.and_eq_true] at starts
      refine List.forall_mem_cons.mpr ⟨starts.1, ?_⟩
      intro d mem
      exact List.all_eq_true.mp List.all_takeWhile d mem
    · rename_i other
      simp [other] at nonempty

/-- No character of a name is a blank, a tab, a line end or a dash. -/
theorem IsName.ne_of_mem {c : Char} (isName : IsName text) (mem : c ∈ text) :
    c ≠ ' ' ∧ c ≠ '\t' ∧ c ≠ '\n' ∧ c ≠ '-' := by
  have word := isName.word c mem
  refine ⟨?_, ?_, ?_, ?_⟩ <;> rintro rfl <;> exact absurd word (by decide)

end Hyperlisting.Token
