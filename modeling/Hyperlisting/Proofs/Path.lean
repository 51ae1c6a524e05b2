import Mathlib.Data.List.TakeWhile
import Hyperlisting.Path
import Hyperlisting.Proofs.OsText
import Hyperlisting.Proofs.Text

/-! Paths by their components. Each operation on the bytes of a path is an operation on the list of
its components: the parent drops the last one, joining appends, and what lies below a base is what
follows its components. -/

namespace Hyperlisting.Path

variable {path base parent relative : Path} {piece name : OsText} {pieces : List OsText}

/-- The components after the one that a path starts from. -/
def steps (path : Path) : List Component := path.parts.pieces.filterMap Component.ofPiece?

theorem components_eq (path : Path) : path.components = path.parts.start.toList ++ path.steps := rfl

/-- A name that one piece of a path can hold. -/
structure IsFileName (name : OsText) : Prop where
  ofPiece : Component.ofPiece? name = some (.name name)
  slashless : separator ∉ name

theorem ofPiece?_eq_name (step : Component.ofPiece? piece = some (.name name)) : piece = name := by
  unfold Component.ofPiece? at step
  split at step
  · cases step
  · cases step
  · cases step
  · exact (Component.name.inj (Option.some.inj step))

theorem ofPiece?_cases {step : Component} (stands : Component.ofPiece? piece = some step) :
    step = .parent ∨ ∃ name, step = .name name := by
  unfold Component.ofPiece? at stands
  split at stands
  · cases stands
  · cases stands
  · exact .inl (Option.some.inj stands).symm
  · exact .inr ⟨_, (Option.some.inj stands).symm⟩

/-- A piece that is neither empty nor dots alone is a name. -/
theorem ofPiece?_of_mem {c : UInt8} (mem : c ∈ piece) (shown : c ≠ dot) :
    Component.ofPiece? piece = some (.name piece) := by
  unfold Component.ofPiece?
  split
  · cases mem
  · simp_all
  · simp_all
  · rfl

/-- What is shown of a name is a name. -/
theorem isFileName_shown (fit : IsFileName name) : IsFileName (OsText.shown name) where
  ofPiece := by
    have differs {dots : OsText} (ascii : ∀ byte ∈ dots, byte.toNat < 0x80)
        (special : Component.ofPiece? dots ≠ some (.name dots)) : OsText.shown name ≠ dots := by
      intro same
      have isText : OsText.shown name = name := OsText.isText_of_shown (same ▸ ascii)
      rw [isText] at same
      exact special (same ▸ fit.ofPiece)
    unfold Component.ofPiece?
    split
    · rename_i empty
      exact absurd empty (differs (by simp) (by decide))
    · rename_i current
      exact absurd current (differs (by decide +kernel) (by decide))
    · rename_i parent
      exact absurd parent (differs (by decide +kernel) (by decide))
    · rfl
  slashless mem := fit.slashless (OsText.mem_of_mem_shown (by decide) mem)

theorem slashless_of_mem_splitOn (mem : piece ∈ pieces)
    (split : pieces = base.bytes.splitOn separator) :
    separator ∉ piece := by
  intro slash
  rw [split, List.splitOn_eq_splitOnP] at mem
  exact absurd (Lists.mem_of_mem_splitOnP mem _ slash).2 (by decide)

theorem trimEnd_isPrefix (pieces : List OsText) : trimEnd pieces <+: pieces := by
  have dropped := List.dropWhile_suffix isIdle (l := pieces.reverse)
  rw [← List.reverse_prefix, List.reverse_reverse] at dropped
  exact dropped

theorem isIdle_eq_false {last : OsText} (ends : (trimEnd pieces).getLast? = some last) :
    isIdle last = false := by
  rw [trimEnd, List.getLast?_reverse] at ends
  have held := List.head?_dropWhile_not isIdle pieces.reverse
  rw [ends] at held
  simpa using held

theorem filterMap_dropWhile (pieces : List OsText) :
    (pieces.dropWhile isIdle).filterMap Component.ofPiece? =
      pieces.filterMap Component.ofPiece? := by
  induction pieces with
  | nil => rfl
  | cons piece pieces ih =>
    cases idle : isIdle piece with
    | true =>
      have none : Component.ofPiece? piece = none := by simpa [isIdle] using idle
      simp [idle, none, ih]
    | false => simp [idle]

theorem filterMap_trimEnd (pieces : List OsText) :
    (trimEnd pieces).filterMap Component.ofPiece? = pieces.filterMap Component.ofPiece? := by
  rw [trimEnd, List.filterMap_reverse, filterMap_dropWhile, List.filterMap_reverse,
    List.reverse_reverse]

theorem skipSteps_isSuffix (count : Nat) (pieces : List OsText) :
    skipSteps count pieces <:+ pieces := by
  induction count generalizing pieces with
  | zero => exact List.dropWhile_suffix _
  | succ count ih =>
    have rest : (pieces.dropWhile isIdle).tail <:+ pieces :=
      (List.tail_suffix _).trans (List.dropWhile_suffix _)
    exact (ih _).trans rest

theorem filterMap_skipSteps (count : Nat) (pieces : List OsText) :
    (skipSteps count pieces).filterMap Component.ofPiece? =
      (pieces.filterMap Component.ofPiece?).drop count := by
  induction count generalizing pieces with
  | zero => exact filterMap_dropWhile pieces
  | succ count ih =>
    rw [skipSteps, ih, ← filterMap_dropWhile pieces]
    cases rest : pieces.dropWhile isIdle with
    | nil => simp
    | cons piece after =>
      have head := List.head?_dropWhile_not isIdle pieces
      rw [rest] at head
      obtain ⟨step, stands⟩ : ∃ step, Component.ofPiece? piece = some step := by
        simpa [isIdle, Option.isSome_iff_exists, Option.ne_none_iff_exists'] using head
      simp [stands]

theorem head?_skipSteps {first : OsText} (count : Nat)
    (starts : (skipSteps count pieces).head? = some first) : isIdle first = false := by
  induction count generalizing pieces with
  | zero =>
    have head := List.head?_dropWhile_not isIdle pieces
    rw [skipSteps] at starts
    rw [starts] at head
    simpa using head
  | succ count ih => exact ih starts

/-- Parts that a path can be cut into. -/
structure Parts.Proper (parts : Parts) : Prop where
  slashless : ∀ piece ∈ parts.pieces, separator ∉ piece
  start : parts.start = some .root ∨ parts.start = some .current ∨
    parts.start = none ∧ ∀ first, parts.pieces.head? = some first → isIdle first = false

/-- Proper parts are those of the path that they make up. -/
theorem parts_ofParts {parts : Parts} (proper : parts.Proper) (nonempty : parts.pieces ≠ []) :
    (ofParts parts).parts = parts := by
  obtain ⟨start, pieces⟩ := parts
  obtain ⟨slashless, starts⟩ := proper
  have cut : ([separator].intercalate pieces).splitOn separator = pieces :=
    List.splitOn_intercalate separator slashless nonempty
  obtain ⟨first, rest, rfl⟩ := List.exists_cons_of_ne_nil nonempty
  rcases starts with rfl | rfl | ⟨rfl, solid⟩
  · have whole : (separator :: [separator].intercalate (first :: rest)).splitOn separator =
        [] :: first :: rest := by
      rw [← List.nil_append (separator :: _), List.splitOn_append_cons_self, cut]
      rfl
    rw [ofParts, Path.parts]
    dsimp only
    rw [whole]
  · have whole : ([separator].intercalate ([dot] :: first :: rest)).splitOn separator =
        [dot] :: first :: rest := by
      apply List.splitOn_intercalate _ _ (List.cons_ne_nil _ _)
      exact List.forall_mem_cons.mpr ⟨by decide, slashless⟩
    rw [ofParts, Path.parts]
    dsimp only
    rw [whole]
    rfl
  · have idle : isIdle first = false := solid first rfl
    rw [ofParts, Path.parts]
    · dsimp only
      rw [cut]
      split
      · rename_i same
        obtain ⟨rfl, _⟩ := List.cons.inj same
        exact absurd idle (by decide)
      · rename_i same
        obtain ⟨rfl, _⟩ := List.cons.inj same
        exact absurd idle (by decide)
      · rfl
    · simp
    · simp

theorem start_steps_ofParts_nil {start : Option Component} (proper : Parts.Proper ⟨start, []⟩) :
    (ofParts ⟨start, []⟩).parts.start = start ∧ (ofParts ⟨start, []⟩).steps = [] := by
  rcases proper.start with same | same | ⟨same, _⟩
  all_goals
    obtain rfl : start = _ := same
    exact ⟨rfl, rfl⟩

theorem start_ofParts {parts : Parts} (proper : parts.Proper) :
    (ofParts parts).parts.start = parts.start := by
  by_cases none : parts.pieces = []
  · obtain ⟨start, pieces⟩ := parts
    obtain rfl : pieces = [] := none
    exact (start_steps_ofParts_nil proper).1
  · rw [parts_ofParts proper none]

theorem steps_ofParts {parts : Parts} (proper : parts.Proper) :
    (ofParts parts).steps = parts.pieces.filterMap Component.ofPiece? := by
  by_cases none : parts.pieces = []
  · obtain ⟨start, pieces⟩ := parts
    obtain rfl : pieces = [] := none
    exact (start_steps_ofParts_nil proper).2
  · rw [steps, parts_ofParts proper none]

theorem components_ofParts {parts : Parts} (proper : parts.Proper) :
    (ofParts parts).components =
      parts.start.toList ++ parts.pieces.filterMap Component.ofPiece? := by
  rw [components_eq, start_ofParts proper, steps_ofParts proper]

/-- How a path starts is told by its first pieces. -/
theorem parts_cases (path : Path) :
    (∃ first rest, path.bytes.splitOn separator = [] :: first :: rest ∧
        path.parts = ⟨some .root, first :: rest⟩) ∨
      (∃ rest, path.bytes.splitOn separator = [dot] :: rest ∧ path.parts = ⟨some .current, rest⟩) ∨
      path.parts = ⟨none, path.bytes.splitOn separator⟩ ∧
        (path.bytes = [] ∨ ∃ first rest, path.bytes.splitOn separator = first :: rest ∧
          isIdle first = false) := by
  obtain ⟨first, rest, cut⟩ := List.exists_cons_of_ne_nil (List.splitOn_ne_nil separator path.bytes)
  have whole : [separator].intercalate (path.bytes.splitOn separator) = path.bytes :=
    List.intercalate_splitOn separator
  rw [parts, cut] at *
  cases first with
  | nil =>
    cases rest with
    | nil => exact .inr (.inr ⟨rfl, .inl whole.symm⟩)
    | cons next rest => exact .inl ⟨next, rest, rfl, rfl⟩
  | cons c first =>
    by_cases dot : c :: first = [dot]
    · rw [dot]
      exact .inr (.inl ⟨rest, rfl, rfl⟩)
    · refine .inr (.inr ⟨?_, .inr ⟨c :: first, rest, rfl, ?_⟩⟩)
      · split
        · rename_i same
          exact absurd (List.cons.inj same).1 (by simp)
        · rename_i same
          exact absurd (List.cons.inj same).1 dot
        · rfl
      · unfold isIdle Component.ofPiece?
        split <;> simp_all

theorem steps_eq (path : Path) :
    path.steps = (path.bytes.splitOn separator).filterMap Component.ofPiece? := by
  rcases path.parts_cases with ⟨first, rest, cut, same⟩ | ⟨rest, cut, same⟩ | ⟨same, _⟩
  · rw [steps, same, cut]
    rfl
  · rw [steps, same, cut]
    rfl
  · rw [steps, same]

theorem ofParts_parts (path : Path) : ofParts path.parts = path := by
  have whole : [separator].intercalate (path.bytes.splitOn separator) = path.bytes :=
    List.intercalate_splitOn separator
  obtain ⟨bytes⟩ := path
  rcases (Path.ofBytes bytes).parts_cases with
    ⟨first, rest, cut, same⟩ | ⟨rest, cut, same⟩ | ⟨same, _⟩
  · rw [cut, List.intercalate_cons_cons] at whole
    rw [same, ofParts]
    exact congrArg Path.ofBytes whole
  · rw [cut] at whole
    rw [same, ofParts]
    exact congrArg Path.ofBytes whole
  · rw [same, ofParts]
    · exact congrArg Path.ofBytes whole
    · simp
    · simp

theorem slashless_of_mem_pieces (path : Path) : ∀ piece ∈ path.parts.pieces, separator ∉ piece := by
  intro piece mem
  apply slashless_of_mem_splitOn _ (rfl : _ = path.bytes.splitOn separator)
  rcases path.parts_cases with ⟨first, rest, cut, same⟩ | ⟨rest, cut, same⟩ | ⟨same, _⟩
  · rw [same] at mem
    rw [cut]
    exact List.mem_cons_of_mem _ mem
  · rw [same] at mem
    rw [cut]
    exact List.mem_cons_of_mem _ mem
  · rwa [same] at mem

/-- A prefix of a path's pieces, without pieces that stand for no step at its end, makes a path. -/
theorem proper_trimEnd (path : Path) {front : List OsText} (isPrefix : front <+: path.parts.pieces) :
    Parts.Proper ⟨path.parts.start, trimEnd front⟩ := by
  have trimmed : trimEnd front <+: path.parts.pieces := (trimEnd_isPrefix front).trans isPrefix
  constructor
  · intro piece mem
    exact path.slashless_of_mem_pieces piece (trimmed.subset mem)
  · rcases path.parts_cases with ⟨_, _, _, same⟩ | ⟨_, _, same⟩ | ⟨same, whole⟩
    · exact .inl (by rw [same])
    · exact .inr (.inl (by rw [same]))
    · refine .inr (.inr ⟨by rw [same], ?_⟩)
      intro piece (starts : (trimEnd front).head? = some piece)
      obtain ⟨others, cons⟩ := List.head?_eq_some_iff.mp starts
      obtain ⟨after, joined⟩ := trimmed
      rw [same, cons] at joined
      rcases whole with empty | ⟨first, rest, cut, idle⟩
      · have single : piece :: others ++ after = [[]] := by simpa [empty] using joined
        obtain ⟨rfl, rest⟩ := List.cons.inj single
        obtain ⟨rfl, _⟩ := List.append_eq_nil_iff.mp rest
        have last : (trimEnd front).getLast? = some [] := by rw [cons]; rfl
        exact isIdle_eq_false last
      · have headed : piece :: others ++ after = first :: rest := by rw [← cut]; exact joined
        obtain ⟨rfl, _⟩ := List.cons.inj headed
        exact idle

theorem isAbsolute_iff : path.isAbsolute = true ↔ path.parts.start = some .root := by
  obtain ⟨bytes⟩ := path
  cases bytes with
  | nil => simp [isAbsolute, parts]
  | cons c bytes =>
    obtain ⟨first, rest, cut⟩ := List.exists_cons_of_ne_nil (List.splitOn_ne_nil separator bytes)
    by_cases slash : c = separator
    · subst slash
      have whole : (separator :: bytes).splitOn separator = [] :: first :: rest := by
        rw [← List.nil_append (separator :: _), List.splitOn_append_cons_self, cut]
        rfl
      simp [isAbsolute, parts, whole]
    · have whole : (c :: bytes).splitOn separator = (c :: first) :: rest := by
        rw [List.splitOn_cons_eq_if_modifyHead, cut]
        simp [slash]
      simp only [isAbsolute, List.head?_cons, parts, whole]
      split <;> simp_all

theorem start_of_bytes_eq_nil (empty : path.bytes = []) : path.parts = ⟨none, [[]]⟩ := by
  simp [parts, empty]

theorem step_of_mem_steps {step : Component} (mem : step ∈ path.steps) :
    step = .parent ∨ ∃ name, step = .name name := by
  obtain ⟨piece, _, stands⟩ := List.mem_filterMap.mp mem
  exact ofPiece?_cases stands

/-- A step that only starts a path. -/
def Component.isStart (step : Component) : Bool := step == .root || step == .current

theorem start_eq (path : Path) :
    path.parts.start = path.components.head?.filter Component.isStart := by
  rw [components_eq]
  rcases path.parts_cases with ⟨_, _, _, same⟩ | ⟨_, _, same⟩ | ⟨same, _⟩
  · rw [same]
    rfl
  · rw [same]
    rfl
  · rw [same]
    cases first : path.steps with
    | nil => rfl
    | cons step rest =>
      rcases step_of_mem_steps (first ▸ List.mem_cons_self) with
        rfl | ⟨name, rfl⟩
      · rfl
      · rfl

theorem isAbsolute_iff_components : path.isAbsolute = true ↔
    path.components.head? = some .root := by
  rw [isAbsolute_iff, start_eq, Option.filter_eq_some_iff]
  exact and_iff_left rfl

theorem components_of_isAbsolute (absolute : path.isAbsolute = true) :
    path.components = .root :: path.steps := by
  rw [components_eq, isAbsolute_iff.mp absolute]
  rfl

theorem parent?_eq (path : Path) :
    path.parent? =
      if trimEnd path.parts.pieces = [] then
        if path.parts.start = some .current then some ⟨[]⟩ else none
      else some (ofParts ⟨path.parts.start, trimEnd (trimEnd path.parts.pieces).dropLast⟩) := by
  rw [parent?]
  split
  · rename_i start none
    rw [if_pos none, if_pos start]
  · rename_i none notCurrent
    rw [if_pos none, if_neg (by simpa using notCurrent)]
  · rename_i none _
    rw [if_neg none]

theorem dropLast_trimEnd_isPrefix (pieces : List OsText) : (trimEnd pieces).dropLast <+: pieces :=
  (List.dropLast_prefix _).trans (trimEnd_isPrefix _)

/-- The last piece that is kept stands for the last step. -/
theorem filterMap_dropLast_trimEnd (pieces : List OsText) :
    (trimEnd pieces).dropLast.filterMap Component.ofPiece? =
      (pieces.filterMap Component.ofPiece?).dropLast := by
  rw [← filterMap_trimEnd pieces]
  rcases List.eq_nil_or_concat (trimEnd pieces) with none | ⟨front, last, kept⟩
  · simp [none]
  · have solid : isIdle last = false := by
      have ends : (trimEnd pieces).getLast? = some last := by simp [kept]
      exact isIdle_eq_false ends
    obtain ⟨step, stands⟩ : ∃ step, Component.ofPiece? last = some step := by
      simpa [isIdle, Option.isSome_iff_exists, Option.ne_none_iff_exists'] using solid
    simp [kept, stands]

theorem trimEnd_eq_nil_iff : trimEnd pieces = [] ↔ pieces.filterMap Component.ofPiece? = [] := by
  simp [trimEnd, List.dropWhile_eq_nil_iff, isIdle]

theorem parent?_isSome_iff : path.parent?.isSome = true ↔
    path.steps ≠ [] ∨ path.parts.start = some .current := by
  rw [parent?_eq, steps, ne_eq, ← trimEnd_eq_nil_iff]
  split <;> simp_all

/-- Above a path is its text up to the last step. A path that is only where it starts has the empty
path above it, if it is written with a dot, and none else. -/
theorem parent?_cases (above : path.parent? = some parent) :
    path.steps = [] ∧ path.parts.start = some .current ∧ parent = ⟨[]⟩ ∨
      path.steps ≠ [] ∧
        Parts.Proper ⟨path.parts.start, trimEnd (trimEnd path.parts.pieces).dropLast⟩ ∧
        parent = ofParts ⟨path.parts.start, trimEnd (trimEnd path.parts.pieces).dropLast⟩ := by
  rw [parent?_eq] at above
  split at above
  · rename_i none
    split at above
    · rename_i start
      exact .inl ⟨trimEnd_eq_nil_iff.mp none, start, (Option.some.inj above).symm⟩
    · cases above
  · rename_i some
    exact .inr ⟨mt trimEnd_eq_nil_iff.mpr some, path.proper_trimEnd (dropLast_trimEnd_isPrefix _),
      (Option.some.inj above).symm⟩

theorem exists_parent? (nonempty : path.steps ≠ []) : ∃ parent, path.parent? = some parent :=
  Option.isSome_iff_exists.mp (parent?_isSome_iff.mpr (.inl nonempty))

theorem steps_parent? (above : path.parent? = some parent) :
    parent.steps = path.steps.dropLast := by
  rcases parent?_cases above with ⟨noSteps, -, rfl⟩ | ⟨-, proper, rfl⟩
  · rw [noSteps]
    rfl
  · rw [steps_ofParts proper]
    dsimp only
    rw [filterMap_trimEnd, filterMap_dropLast_trimEnd, steps]

theorem isAbsolute_parent? (above : path.parent? = some parent) :
    parent.isAbsolute = path.isAbsolute := by
  rw [Bool.eq_iff_iff, isAbsolute_iff, isAbsolute_iff]
  rcases parent?_cases above with ⟨-, start, rfl⟩ | ⟨-, proper, rfl⟩
  · rw [start, start_of_bytes_eq_nil rfl]
    simp
  · rw [start_ofParts proper]

theorem components_parent? (above : path.parent? = some parent) (nonempty : path.steps ≠ []) :
    parent.components = path.components.dropLast := by
  obtain ⟨-, proper, rfl⟩ := (parent?_cases above).resolve_left fun none => nonempty none.1
  rw [components_ofParts proper]
  dsimp only
  rw [filterMap_trimEnd, filterMap_dropLast_trimEnd, components_eq,
    List.dropLast_append_of_ne_nil nonempty, steps]

theorem intercalate_isPrefix {front : List OsText} (isPrefix : front <+: pieces) :
    [separator].intercalate front <+: [separator].intercalate pieces := by
  obtain ⟨after, rfl⟩ := isPrefix
  induction front with
  | nil => exact List.nil_prefix
  | cons first front ih =>
    cases front with
    | nil =>
      cases after with
      | nil => exact List.prefix_rfl
      | cons next after =>
        rw [List.intercalate_singleton, List.singleton_append, List.intercalate_cons_cons,
          List.append_assoc]
        exact List.prefix_append ..
    | cons second front =>
      rw [List.cons_append, List.cons_append, List.intercalate_cons_cons,
        List.intercalate_cons_cons]
      exact (List.prefix_append_right_inj _).mpr ih

/-- A path goes on from its parent. -/
theorem bytes_parent?_isPrefix (above : path.parent? = some parent) : parent.bytes <+: path.bytes := by
  rcases parent?_cases above with ⟨-, -, rfl⟩ | ⟨-, -, rfl⟩
  · exact List.nil_prefix
  · have front : trimEnd (trimEnd path.parts.pieces).dropLast <+: path.parts.pieces :=
      (trimEnd_isPrefix _).trans (dropLast_trimEnd_isPrefix _)
    have whole := congrArg Path.bytes path.ofParts_parts
    rw [← whole]
    rcases path.parts_cases with ⟨_, _, _, same⟩ | ⟨_, _, same⟩ | ⟨same, _⟩
    · rw [same] at front ⊢
      exact List.cons_prefix_cons.mpr ⟨rfl, intercalate_isPrefix front⟩
    · rw [same] at front ⊢
      exact intercalate_isPrefix (List.cons_prefix_cons.mpr ⟨rfl, front⟩)
    · rw [same] at front ⊢
      exact intercalate_isPrefix front

theorem length_parent?_lt (above : path.parent? = some parent) :
    parent.bytes.length < path.bytes.length := by
  have isPrefix := bytes_parent?_isPrefix above
  refine Nat.lt_of_le_of_ne isPrefix.length_le fun same => ?_
  obtain rfl : parent = path := congrArg Path.ofBytes (isPrefix.eq_of_length same)
  have whole := steps_parent? above
  have none : parent.steps = [] := by
    by_contra some
    have shorter := congrArg List.length whole
    rw [List.length_dropLast] at shorter
    have := List.length_pos_iff.mpr some
    omega
  obtain ⟨-, start, rfl⟩ := (parent?_cases above).resolve_right fun some => some.1 none
  cases start

theorem parts_append {before after : OsText} (nonempty : before ≠ []) :
    (Path.ofBytes (before ++ separator :: after)).parts =
      ⟨(Path.ofBytes before).parts.start,
        (Path.ofBytes before).parts.pieces ++ after.splitOn separator⟩ := by
  have whole : (before ++ separator :: after).splitOn separator =
      before.splitOn separator ++ after.splitOn separator :=
    List.splitOn_append_cons_self ..
  rcases (Path.ofBytes before).parts_cases with
    ⟨first, rest, cut, same⟩ | ⟨rest, cut, same⟩ | ⟨same, empty | ⟨first, rest, cut, idle⟩⟩
  · rw [same, parts, whole, cut]
    rfl
  · rw [same, parts, whole, cut]
    rfl
  · exact absurd empty nonempty
  · rw [same, parts, whole]
    dsimp only at cut ⊢
    rw [cut]
    cases first with
    | nil => cases idle
    | cons c first =>
      dsimp only [List.cons_append]
      split
      · rename_i headed
        cases headed
      · rename_i headed
        obtain ⟨same, _⟩ := List.cons.inj headed
        rw [same] at idle
        cases idle
      · rfl

theorem join_eq (base : Path) (isRelative : path.isAbsolute = false) :
    base.bytes = [] ∧ base.join path = path ∨
      ∃ before, base.join path = ⟨before ++ separator :: path.bytes⟩ ∧
        (base.bytes = before ∧ before ≠ [] ∨ base.bytes = before ++ [separator]) := by
  rw [join, if_neg (by simp [isRelative])]
  rcases List.eq_nil_or_concat base.bytes with empty | ⟨before, last, same⟩
  · exact .inl ⟨empty, by simp [empty]⟩
  · rw [List.concat_eq_append] at same
    right
    by_cases slash : last = separator
    · subst slash
      refine ⟨before, ?_, .inr same⟩
      rw [if_pos (by simp [same]), same, List.append_assoc, List.singleton_append]
    · refine ⟨base.bytes, ?_, .inl ⟨rfl, by simp [same]⟩⟩
      rw [if_neg (by simpa [same] using slash)]

theorem steps_append (before after : OsText) :
    (Path.ofBytes (before ++ separator :: after)).steps =
      (Path.ofBytes before).steps ++ (Path.ofBytes after).steps := by
  rw [steps_eq, steps_eq, steps_eq, List.splitOn_append_cons_self, List.filterMap_append]

theorem steps_join (isRelative : path.isAbsolute = false) :
    (base.join path).steps = base.steps ++ path.steps := by
  obtain ⟨bytes⟩ := base
  rcases join_eq ⟨bytes⟩ isRelative with ⟨rfl, same⟩ | ⟨before, same, ⟨rfl, _⟩ | rfl⟩
  · rw [same]
    rfl
  · rw [same, steps_append]
  · rw [same, steps_append, steps_append]
    simp [steps, parts, Component.ofPiece?]

theorem isAbsolute_join (isRelative : path.isAbsolute = false) :
    (base.join path).isAbsolute = base.isAbsolute := by
  obtain ⟨bytes⟩ := base
  rcases join_eq ⟨bytes⟩ isRelative with ⟨rfl, same⟩ | ⟨before, same, ⟨rfl, nonempty⟩ | rfl⟩
  · rw [same, isRelative]
    rfl
  · rw [same]
    obtain ⟨c, before, rfl⟩ := List.exists_cons_of_ne_nil nonempty
    rfl
  · rw [same]
    cases before <;> rfl

/-- A path starts as the directory does that it is joined to. -/
theorem start_join (isRelative : path.isAbsolute = false) (nonempty : base.bytes ≠ []) :
    (base.join path).parts.start = base.parts.start := by
  cases absolute : base.isAbsolute with
  | true =>
    have joined : (base.join path).isAbsolute = true := by rw [isAbsolute_join isRelative, absolute]
    rw [isAbsolute_iff.mp absolute, isAbsolute_iff.mp joined]
  | false =>
    obtain ⟨bytes⟩ := base
    rcases join_eq ⟨bytes⟩ isRelative with ⟨empty, _⟩ | ⟨before, same, ⟨rfl, _⟩ | rfl⟩
    · exact absurd empty nonempty
    · rw [same, parts_append nonempty]
    · have before_ne : before ≠ [] := by
        rintro rfl
        cases absolute
      rw [same, parts_append before_ne, parts_append before_ne]

/-- Steps that are joined to a directory follow its own. -/
theorem components_join (unstarted : path.parts.start = none) :
    (base.join path).components = base.components ++ path.steps := by
  have isRelative : path.isAbsolute = false := by
    rw [Bool.eq_false_iff, ne_eq, isAbsolute_iff, unstarted]
    simp
  by_cases empty : base.bytes = []
  · have joined : base.join path = path := by
      rw [join, if_neg (by simp [isRelative]), empty]
      rfl
    have start := start_of_bytes_eq_nil empty
    rw [joined, components_eq, components_eq base, unstarted, steps, steps, start]
    rfl
  · rw [components_eq, components_eq base, start_join isRelative empty, steps_join isRelative,
      List.append_assoc]

theorem splitOn_of_slashless (slashless : separator ∉ name) : name.splitOn separator = [name] := by
  have cut := List.splitOn_intercalate separator (List.forall_mem_singleton.mpr slashless)
    (List.cons_ne_nil name [])
  rwa [List.intercalate_singleton] at cut

theorem parts_of_isFileName (fits : IsFileName name) :
    (Path.ofBytes name).parts = ⟨none, [name]⟩ := by
  obtain ⟨stands, slashless⟩ := fits
  rw [parts]
  dsimp only
  rw [splitOn_of_slashless slashless]
  split
  · rename_i same
    cases same
  · rename_i same
    obtain ⟨rfl, _⟩ := List.cons.inj same
    cases stands
  · rfl

theorem steps_of_isFileName (fits : IsFileName name) : (Path.ofBytes name).steps = [.name name] := by
  simp [steps, parts_of_isFileName fits, fits.ofPiece]

theorem isAbsolute_of_isFileName (fits : IsFileName name) :
    (Path.ofBytes name).isAbsolute = false := by
  rw [Bool.eq_false_iff, ne_eq, isAbsolute_iff, parts_of_isFileName fits]
  simp

theorem fileName?_eq_some_iff : path.fileName? = some name ↔
    path.components.getLast? = some (.name name) := by
  unfold fileName?
  split
  · rename_i bytes ends
    rw [ends]
    simp
  · rename_i none
    simpa using none name

theorem fileName?_of_steps {front : List Component} (same : path.steps = front ++ [.name name]) :
    path.fileName? = some name := by
  rw [fileName?_eq_some_iff, components_eq, same, ← List.append_assoc, List.getLast?_concat]

/-- The file name is the last step. -/
theorem exists_steps_of_fileName? (named : path.fileName? = some name) :
    ∃ front, path.steps = front ++ [.name name] := by
  rw [fileName?_eq_some_iff, components_eq] at named
  rcases List.eq_nil_or_concat path.steps with none | ⟨front, last, same⟩
  · rw [none, List.append_nil] at named
    rcases path.parts_cases with ⟨_, _, _, start⟩ | ⟨_, _, start⟩ | ⟨start, _⟩
    all_goals
      rw [start] at named
      cases named
  · rw [same, List.concat_eq_append, ← List.append_assoc, List.getLast?_concat] at named
    exact ⟨front, by rw [same, Option.some.inj named, List.concat_eq_append]⟩

theorem isFileName_of_mem (mem : .name name ∈ path.steps) : IsFileName name := by
  obtain ⟨piece, inPieces, stands⟩ := List.mem_filterMap.mp mem
  obtain rfl := ofPiece?_eq_name stands
  exact ⟨stands, path.slashless_of_mem_pieces _ inPieces⟩

theorem isFileName_of_fileName? (named : path.fileName? = some name) : IsFileName name := by
  obtain ⟨front, same⟩ := exists_steps_of_fileName? named
  have mem : .name name ∈ path.steps := by simp [same]
  exact isFileName_of_mem mem

/-- A path with a file name has a parent, to which the other name is joined. -/
theorem withFileName_eq (name : OsText) {old : OsText} (named : path.fileName? = some old) :
    ∃ parent, path.parent? = some parent ∧ path.withFileName name = parent.join ⟨name⟩ := by
  obtain ⟨front, same⟩ := exists_steps_of_fileName? named
  obtain ⟨parent, above⟩ := path.exists_parent? (by simp [same])
  exact ⟨parent, above, by rw [withFileName, named, above]⟩

section WithFileName

variable {old : OsText} (named : path.fileName? = some old) (fits : IsFileName name)

include named fits

theorem steps_withFileName :
    (path.withFileName name).steps = path.steps.dropLast ++ [.name name] := by
  obtain ⟨parent, above, same⟩ := withFileName_eq name named
  rw [same, steps_join (isAbsolute_of_isFileName fits), steps_of_isFileName fits,
    steps_parent? above]

theorem isAbsolute_withFileName : (path.withFileName name).isAbsolute = path.isAbsolute := by
  obtain ⟨parent, above, same⟩ := withFileName_eq name named
  rw [same, isAbsolute_join (isAbsolute_of_isFileName fits), isAbsolute_parent? above]

theorem components_withFileName :
    (path.withFileName name).components = path.components.dropLast ++ [.name name] := by
  obtain ⟨parent, above, same⟩ := withFileName_eq name named
  obtain ⟨front, steps⟩ := exists_steps_of_fileName? named
  have unstarted : (Path.ofBytes name).parts.start = none := by rw [parts_of_isFileName fits]
  rw [same, components_join unstarted, steps_of_isFileName fits,
    components_parent? above (by simp [steps])]

/-- The name is the last piece, so nothing follows it. -/
theorem exists_pieces_withFileName :
    ∃ front, (path.withFileName name).parts.pieces = front ++ [name] := by
  obtain ⟨⟨bytes⟩, above, same⟩ := withFileName_eq name named
  have last := splitOn_of_slashless fits.slashless
  rw [same]
  rcases join_eq ⟨bytes⟩ (isAbsolute_of_isFileName fits) with
    ⟨rfl, same⟩ | ⟨before, same, ⟨rfl, nonempty⟩ | rfl⟩
  · exact ⟨[], by rw [same, parts_of_isFileName fits, List.nil_append]⟩
  · exact ⟨_, by rw [same, parts_append nonempty, last]⟩
  · rw [same]
    by_cases empty : before = []
    · subst empty
      refine ⟨[], ?_⟩
      have whole : (separator :: name).splitOn separator = [] :: name.splitOn separator :=
        List.splitOn_append_cons_self [] name
      rw [parts]
      dsimp only [List.nil_append]
      rw [whole, last]
    · exact ⟨_, by rw [parts_append empty, last]⟩

end WithFileName

theorem startsWith_iff : path.startsWith base = true ↔ base.components <+: path.components := by
  rw [startsWith, List.isPrefixOf_iff_prefix]

theorem start_eq_of_isPrefix (isPrefix : base.components <+: path.components)
    (nonempty : base.components ≠ []) : base.parts.start = path.parts.start := by
  obtain ⟨after, joined⟩ := isPrefix
  obtain ⟨first, rest, cons⟩ := List.exists_cons_of_ne_nil nonempty
  rw [start_eq base, start_eq path, ← joined, cons]
  rfl

theorem proper_skipSteps (path : Path) (count : Nat) :
    Parts.Proper ⟨none, trimEnd (skipSteps count path.parts.pieces)⟩ := by
  have kept := trimEnd_isPrefix (skipSteps count path.parts.pieces)
  constructor
  · intro piece mem
    exact path.slashless_of_mem_pieces piece ((skipSteps_isSuffix _ _).subset (kept.subset mem))
  · refine .inr (.inr ⟨rfl, ?_⟩)
    intro first (starts : (trimEnd _).head? = some first)
    obtain ⟨others, cons⟩ := List.head?_eq_some_iff.mp starts
    obtain ⟨after, joined⟩ := kept
    rw [cons] at joined
    exact head?_skipSteps count (by rw [← joined]; rfl)

/-- What lies below a base starts afresh, unless the base is empty. -/
theorem below?_eq (isPrefix : base.components <+: path.components) :
    path.below? base = some (ofParts (if base.components = [] then
        ⟨path.parts.start, trimEnd path.parts.pieces⟩
      else ⟨none, trimEnd (skipSteps base.steps.length path.parts.pieces)⟩)) := by
  rw [below?, if_pos (startsWith_iff.mpr isPrefix)]
  split
  · rename_i empty
    rw [if_pos empty]
  · rename_i start notNil
    rw [if_neg notNil, components_eq, start]
    rfl
  · rename_i first rest step cons start
    rw [if_neg (by simp [cons])]
    rw [components_eq, start] at cons
    obtain ⟨_, rfl⟩ := List.cons.inj cons
    rfl

theorem isPrefix_of_below? (found : path.below? base = some relative) :
    base.components <+: path.components := by
  rw [← startsWith_iff]
  by_contra outside
  rw [below?, if_neg outside] at found
  cases found

theorem components_below? (found : path.below? base = some relative) :
    relative.components = path.components.drop base.components.length := by
  have isPrefix := isPrefix_of_below? found
  rw [below?_eq isPrefix] at found
  obtain rfl := Option.some.inj found
  by_cases empty : base.components = []
  · rw [if_pos empty, components_ofParts (path.proper_trimEnd List.prefix_rfl), empty]
    dsimp only
    rw [filterMap_trimEnd]
    rfl
  · rw [if_neg empty, components_ofParts (path.proper_skipSteps _), components_eq base,
      start_eq_of_isPrefix isPrefix empty]
    dsimp only
    rw [filterMap_trimEnd, filterMap_skipSteps, components_eq, List.length_append,
      List.drop_append]
    simp [steps]

theorem start_below? (found : path.below? base = some relative)
    (nonempty : base.components ≠ []) : relative.parts.start = none := by
  rw [below?_eq (isPrefix_of_below? found), if_neg nonempty] at found
  obtain rfl := Option.some.inj found
  exact start_ofParts (path.proper_skipSteps _)

theorem isAbsolute_below? (found : path.below? base = some relative)
    (nonempty : base.components ≠ []) : relative.isAbsolute = false := by
  rw [Bool.eq_false_iff, ne_eq, isAbsolute_iff, start_below? found nonempty]
  simp

end Hyperlisting.Path
