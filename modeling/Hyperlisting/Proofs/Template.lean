import Hyperlisting.Proofs.Lists
import Hyperlisting.Template

/-! Filling a template in one pass. The placeholders of a text are told apart without a reader, each
as the first that stands behind the one before; filling replaces each of them by its value and
nothing else, and what is put in is not looked at again. -/

namespace Hyperlisting.Template

variable {template : Template} {values : List (Text × Slot)} {found : List (Text × Text)}
  {source before name rest tail text : Text}

/-- A letter or `_`, then letters, digits and `_`. -/
def IsName (name : Text) : Prop :=
  ∃ c rest, name = c :: rest ∧ (c.isAlpha = true ∨ c = '_') ∧
    ∀ d ∈ rest, d.isAlphanum = true ∨ d = '_'

/-- A placeholder as it is written. -/
def written (name : Text) : Text := '$' :: '\x7b' :: (name ++ ['\x7d'])

/-- A placeholder stands at the front. -/
def Opens (text : Text) : Prop := ∃ name, IsName name ∧ written name <+: text

/-- The placeholders of a text from the left, each with the text between it and the one before, and
the text behind the last one. -/
inductive Found : Text → List (Text × Text) → Text → Prop
  | none {tail : Text} : (∀ later, later <:+ tail → ¬ Opens later) → Found tail [] tail
  /-- No placeholder starts in front of the first one. -/
  | next {before name rest tail : Text} {found : List (Text × Text)} : IsName name →
      (∀ later, later <:+ before → later ≠ [] → ¬ Opens (later ++ (written name ++ rest))) →
      Found rest found tail →
      Found (before ++ (written name ++ rest)) ((before, name) :: found) tail

/-- A text has its placeholders, however its openings overlap. -/
theorem exists_found (source : Text) : ∃ found tail, Found source found tail := by
  induction size : source.length using Nat.strongRecOn generalizing source with
  | ind size ih =>
  by_cases opens : Opens source
  · obtain ⟨name, isName, rest, rfl⟩ := opens
    obtain ⟨found, tail, others⟩ := ih rest.length (by simp [written, ← size]; omega) rest rfl
    refine ⟨_, _, @Found.next [] _ _ _ _ isName ?_ others⟩
    exact fun later suffix nonempty => absurd (List.suffix_nil.mp suffix) nonempty
  cases source with
  | nil => exact ⟨[], [], .none fun later suffix => List.suffix_nil.mp suffix ▸ opens⟩
  | cons c source =>
    obtain ⟨found, tail, others⟩ := ih source.length (by simp [← size]) source rfl
    cases others with
    | none clear =>
      refine ⟨[], c :: source, .none fun later suffix => ?_⟩
      rcases List.suffix_cons_iff.mp suffix with rfl | suffix
      · exact opens
      · exact clear later suffix
    | @next before name rest tail found isName first others =>
      refine ⟨_, tail, @Found.next (c :: before) _ _ _ _ isName ?_ others⟩
      intro later suffix nonempty
      rcases List.suffix_cons_iff.mp suffix with rfl | suffix
      · exact opens
      · exact first later suffix nonempty

theorem isNameChar_of_isName (isName : IsName name) : ∀ c ∈ name, isNameChar c = true := by
  obtain ⟨c, rest, rfl, start, others⟩ := isName
  refine List.forall_mem_cons.mpr ⟨?_, fun d mem => by simpa [isNameChar] using others d mem⟩
  rcases start with letter | rfl
  · simp [isNameChar, Char.isAlphanum, letter]
  · rfl

theorem isName_iff : IsName name ↔
    name.head?.any isNameStart = true ∧ name.all isNameChar = true := by
  constructor
  · intro isName
    refine ⟨?_, List.all_eq_true.mpr (isNameChar_of_isName isName)⟩
    obtain ⟨c, rest, rfl, start, -⟩ := isName
    simpa [isNameStart] using start
  · rintro ⟨starts, letters⟩
    cases name with
    | nil => cases starts
    | cons c others =>
      refine ⟨c, others, rfl, by simpa [isNameStart] using starts, fun d mem => ?_⟩
      simpa [isNameChar] using List.all_eq_true.mp letters d (List.mem_cons_of_mem _ mem)

instance (name : Text) : Decidable (IsName name) := decidable_of_iff' _ isName_iff

theorem placeholder?_written (isName : IsName name) (rest : Text) :
    placeholder? (written name ++ rest) = some name := by
  have text : written name ++ rest = '$' :: '\x7b' :: (name ++ '\x7d' :: rest) := by
    simp [written]
  have ends : (name ++ '\x7d' :: rest).takeWhile isNameChar = name := by
    rw [List.takeWhile_append_of_pos (isNameChar_of_isName isName)]
    simp [show isNameChar '\x7d' = false from rfl]
  rw [text, placeholder?, ends, List.drop_left]
  simp [(isName_iff.mp isName).1]

theorem exists_of_placeholder? (read : placeholder? text = some name) :
    IsName name ∧ ∃ rest, text = written name ++ rest := by
  unfold placeholder? at read
  split at read
  case h_2 => cases read
  rename_i rest
  dsimp only at read
  split at read
  case isFalse => cases read
  rename_i closed
  obtain rfl := Option.some.inj read
  obtain ⟨starts, ends⟩ := (Bool.and_eq_true ..).mp closed
  obtain ⟨after, behind⟩ := List.head?_eq_some_iff.mp (of_decide_eq_true ends)
  constructor
  · exact isName_iff.mpr ⟨starts, List.all_takeWhile⟩
  · have whole := List.prefix_iff_eq_append.mp (List.takeWhile_prefix isNameChar (l := rest))
    rw [behind] at whole
    exact ⟨after, by simp [written, whole]⟩

theorem placeholder?_eq_none_iff : placeholder? text = none ↔ ¬ Opens text := by
  constructor
  · rintro unread ⟨name, isName, rest, rfl⟩
    rw [placeholder?_written isName rest] at unread
    cases unread
  · intro closed
    cases read : placeholder? text with
    | none => rfl
    | some name =>
      obtain ⟨isName, rest, rfl⟩ := exists_of_placeholder? read
      exact absurd ⟨name, isName, List.prefix_append ..⟩ closed

theorem partsFrom_length (skipped rest : Text) :
    partsFrom skipped.length (skipped ++ rest) = partsFrom 0 rest := by
  induction skipped with
  | nil => rfl
  | cons c skipped ih => exact ih

theorem partsFrom_written (isName : IsName name) (rest : Text) :
    partsFrom 0 (written name ++ rest) = .placeholder name :: partsFrom 0 rest := by
  have read := placeholder?_written isName rest
  have skipped := partsFrom_length ('\x7b' :: (name ++ ['\x7d'])) rest
  rw [List.length_cons, List.length_append, List.length_singleton] at skipped
  rw [written, List.cons_append] at read ⊢
  rw [partsFrom, read]
  exact congrArg _ skipped

/-- What stands in front of the first placeholder is read as it is. -/
theorem partsFrom_append
    (first : ∀ later, later <:+ before → later ≠ [] → ¬ Opens (later ++ rest)) :
    partsFrom 0 (before ++ rest) = before.map .literal ++ partsFrom 0 rest := by
  induction before with
  | nil => rfl
  | cons c before ih =>
    have closed := first _ (List.suffix_refl _) (List.cons_ne_nil c before)
    have later := ih fun later suffix => first later (suffix.trans (List.suffix_cons ..))
    rw [List.cons_append] at closed
    rw [List.cons_append, partsFrom, placeholder?_eq_none_iff.mpr closed, later]
    rfl

/-- A template reads as its placeholders and the text around them. -/
theorem Found.partsFrom_eq (all : Found source found tail) :
    partsFrom 0 source =
      found.flatMap (fun (before, name) => before.map .literal ++ [.placeholder name]) ++
        tail.map .literal := by
  induction all with
  | @none tail clear =>
    have whole : partsFrom 0 (tail ++ []) = _ := partsFrom_append fun later suffix _ => by
      rw [List.append_nil]
      exact clear later suffix
    rw [List.append_nil] at whole
    rw [whole, partsFrom, List.append_nil, List.flatMap_nil, List.nil_append]
  | @next before name rest tail found isName first others ih =>
    rw [partsFrom_append first, partsFrom_written isName, ih]
    simp

/-- A template has the names of its placeholders, whatever stands around them. -/
theorem mem_placeholders (all : Found template.source found tail) :
    name ∈ template.placeholders ↔ name ∈ found.map Prod.snd := by
  have literals (s : Text) : (s.map Part.literal).filterMap Part.name? = [] := by
    simp [List.filterMap_map, Function.comp_def, Part.name?]
  have named : template.parts.filterMap Part.name? = found.map Prod.snd := by
    rw [parts, all.partsFrom_eq, List.filterMap_append, literals, List.append_nil,
      List.filterMap_flatMap, List.map_eq_flatMap]
    simp [literals, Part.name?]
  rw [placeholders, Lists.mem_eraseReps, List.mem_mergeSort, named]

theorem pairwise_placeholders (template : Template) :
    template.placeholders.Pairwise fun name other => (compare name other).isLE = true := by
  refine (Lists.pairwise_eraseReps ?_ (Lists.pairwise_mergeSort_compare _)).imp And.left
  exact fun name _ other _ before after =>
    Std.LawfulEqOrd.eq_of_compare (Std.OrientedCmp.isLE_antisymm before after)

theorem isNone_valueOf? : (valueOf? values name).isNone = true ↔ name ∉ values.map Prod.fst := by
  simp only [valueOf?, Option.isNone_map, Option.isNone_iff_eq_none, List.find?_eq_none,
    decide_eq_true_eq, List.mem_map, not_exists, not_and]

theorem valueOf?_of_mem (distinct : (values.map Prod.fst).Nodup) {slot : Slot}
    (mem : (name, slot) ∈ values) : valueOf? values name = some slot := by
  induction values with
  | nil => cases mem
  | cons first values ih =>
    obtain ⟨notLater, distinct⟩ := List.nodup_cons.mp distinct
    rcases List.mem_cons.mp mem with rfl | later
    · simp [valueOf?]
    · have other : first.1 ≠ name := by
        rintro rfl
        exact notLater (List.mem_map.mpr ⟨_, later, rfl⟩)
      rw [← ih distinct later, valueOf?, valueOf?, List.find?_cons_of_neg (by simpa using other)]

/-- What stands in the place of a placeholder. -/
def shown (values : List (Text × Slot)) (name : Text) : Text :=
  ((valueOf? values name).map Slot.print).getD []

theorem shown_of_mem (distinct : (values.map Prod.fst).Nodup) {slot : Slot}
    (mem : (name, slot) ∈ values) : shown values name = slot.print := by
  rw [shown, valueOf?_of_mem distinct mem]
  rfl

/-- The text around placeholders stays, and each placeholder makes way for its value. -/
theorem flatMap_print (all : Found template.source found tail) (values : List (Text × Slot)) :
    template.parts.flatMap (Part.print values) =
      found.flatMap (fun (before, name) => before ++ shown values name) ++ tail := by
  have literals (s : Text) : (s.map Part.literal).flatMap (Part.print values) = s := by
    simp [List.flatMap_map, Part.print]
  rw [parts, all.partsFrom_eq, List.flatMap_append, literals, List.flatMap_assoc]
  simp [literals, Part.print, shown]

/-- What filling a template comes to, told from its placeholders. -/
structure Fills (template : Template) (values : List (Text × Slot)) (found : List (Text × Text))
    (tail : Text) : Prop where
  /-- No value may be without a placeholder. -/
  unknown : (∃ value ∈ values, value.1 ∉ found.map Prod.snd) →
    ∃ value ∈ values, value.1 ∉ found.map Prod.snd ∧
      template.fill values = .error (.unknownPlaceholder value.1)
  /-- Else no placeholder may be without a value, and the least one of them is told. -/
  missing : (∀ value ∈ values, value.1 ∈ found.map Prod.snd) →
    (∃ name ∈ found.map Prod.snd, name ∉ values.map Prod.fst) →
      ∃ name ∈ found.map Prod.snd, name ∉ values.map Prod.fst ∧
        (∀ other ∈ found.map Prod.snd, other ∉ values.map Prod.fst →
          (compare name other).isLE = true) ∧
        template.fill values = .error (.missingValue name)
  /-- Else every placeholder makes way for its value, text escaped and markup as it is. -/
  filled : (∀ value ∈ values, value.1 ∈ found.map Prod.snd) →
    (∀ name ∈ found.map Prod.snd, name ∈ values.map Prod.fst) →
      ∃ shown : Text → Text,
        (∀ name content, (name, .text content) ∈ values → shown name = Markup.escape content) ∧
        (∀ name content, (name, .markup content) ∈ values → shown name = content) ∧
        template.fill values =
          .ok (found.flatMap (fun (before, name) => before ++ shown name) ++ tail)

theorem fill_of_unknown {value : Text × Slot} (mem : value ∈ values)
    (unknown : value.1 ∉ template.placeholders) :
    ∃ value ∈ values, value.1 ∉ template.placeholders ∧
      template.fill values = .error (.unknownPlaceholder value.1) := by
  cases first : values.find? (!template.placeholders.contains ·.1) with
  | none =>
    have known := List.find?_eq_none.mp first value mem
    simp [unknown] at known
  | some other =>
    have refused := List.find?_some first
    refine ⟨other, List.mem_of_find?_eq_some first, by simpa using refused, ?_⟩
    rw [fill, first]

theorem find?_unknown (known : ∀ value ∈ values, value.1 ∈ template.placeholders) :
    values.find? (!template.placeholders.contains ·.1) = none := by
  refine List.find?_eq_none.mpr fun value mem => ?_
  simpa using known value mem

theorem fill_of_missing (known : ∀ value ∈ values, value.1 ∈ template.placeholders)
    (mem : name ∈ template.placeholders) (missing : name ∉ values.map Prod.fst) :
    ∃ name ∈ template.placeholders, name ∉ values.map Prod.fst ∧
      (∀ other ∈ template.placeholders, other ∉ values.map Prod.fst →
        (compare name other).isLE = true) ∧
      template.fill values = .error (.missingValue name) := by
  cases first : template.placeholders.find? fun name => (valueOf? values name).isNone with
  | none => exact absurd (isNone_valueOf?.mpr missing) (List.find?_eq_none.mp first name mem)
  | some least =>
    obtain ⟨without, before, after, whole, given⟩ := List.find?_eq_some_iff_append.mp first
    refine ⟨least, List.mem_of_find?_eq_some first, isNone_valueOf?.mp without, ?_, ?_⟩
    · -- the names come in order, and those before the one that is told have values
      intro other otherMem otherMissing
      have ordered := pairwise_placeholders template
      rw [whole] at ordered otherMem
      rcases List.mem_append.mp otherMem with earlier | here
      · have hasValue := given other earlier
        rw [isNone_valueOf?.mpr otherMissing] at hasValue
        cases hasValue
      rcases List.mem_cons.mp here with rfl | later
      · exact Std.ReflCmp.isLE_rfl
      · exact (List.pairwise_cons.mp (List.pairwise_append.mp ordered).2.1).1 other later
    · rw [fill, find?_unknown known, first]

theorem fill_of_given (known : ∀ value ∈ values, value.1 ∈ template.placeholders)
    (given : ∀ name ∈ template.placeholders, name ∈ values.map Prod.fst) :
    template.fill values = .ok (template.parts.flatMap (Part.print values)) := by
  have none : (template.placeholders.find? fun name => (valueOf? values name).isNone) = none :=
    List.find?_eq_none.mpr fun name mem missing => isNone_valueOf?.mp missing (given name mem)
  rw [fill, find?_unknown known, none]

theorem fills (distinct : (values.map Prod.fst).Nodup)
    (all : Found template.source found tail) : Fills template values found tail := by
  have names : ∀ name, name ∈ found.map Prod.snd ↔ name ∈ template.placeholders :=
    fun name => (mem_placeholders all).symm
  constructor
  case unknown =>
    rintro ⟨value, mem, unknown⟩
    simp only [names] at unknown ⊢
    exact fill_of_unknown mem unknown
  case missing =>
    rintro known ⟨name, mem, missing⟩
    simp only [names] at known mem ⊢
    exact fill_of_missing known mem missing
  case filled =>
    intro known given
    simp only [names] at known given
    refine ⟨shown values, fun name content => shown_of_mem distinct,
      fun name content => shown_of_mem distinct, ?_⟩
    rw [fill_of_given known given, flatMap_print all]

end Hyperlisting.Template
