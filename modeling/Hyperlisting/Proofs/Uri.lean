import Mathlib.Data.List.TakeWhile
import Hyperlisting.Text

/-! References to resources. A reference is cut at its marks into a scheme, an authority, a path, a
query and a fragment, of which only the path is always there, and cutting loses nothing. What is cut
off conforms if it is made of the characters that may stand there; a path that starts a reference
has no colon in its first segment, as that would end a scheme. Percent escapes stand for bytes, and
the bytes of a part are the UTF-8 form of the text that it stands for. -/

namespace Hyperlisting.Uri

structure Reference where
  scheme : Option Text
  authority : Option Text
  path : Text
  query : Option Text
  fragment : Option Text
deriving DecidableEq

def isSchemeChar (c : Char) : Bool := c.isAlphanum || "+-.".toList.contains c

/-- A letter, followed by letters, digits and some marks. -/
def isScheme : Text → Bool
  | [] => false
  | c :: rest => c.isAlpha && rest.all isSchemeChar

/-- What stands before a mark and, if the mark is there, what stands after it. -/
def cutAt (mark : Char) (s : Text) : Text × Option Text :=
  match s.dropWhile (· ≠ mark) with
  | [] => (s, none)
  | _ :: rest => (s.takeWhile (· ≠ mark), some rest)

/-- A colon ends a scheme if what stands before it is one. -/
def cutScheme (s : Text) : Option Text × Text :=
  match cutAt ':' s with
  | (front, some rest) => if isScheme front then (some front, rest) else (none, s)
  | (_, none) => (none, s)

/-- Two slashes start an authority, which goes up to the next slash. -/
def cutAuthority : Text → Option Text × Text
  | '/' :: '/' :: rest => (some (rest.takeWhile (· ≠ '/')), rest.dropWhile (· ≠ '/'))
  | s => (none, s)

def split (s : Text) : Reference :=
  let beforeFragment := cutAt '#' s
  let beforeQuery := cutAt '?' beforeFragment.1
  let afterScheme := cutScheme beforeQuery.1
  let afterAuthority := cutAuthority afterScheme.2
  { scheme := afterScheme.1
    authority := afterAuthority.1
    path := afterAuthority.2
    query := beforeQuery.2
    fragment := beforeFragment.2 }

def Reference.write (reference : Reference) : Text :=
  reference.scheme.elim [] (· ++ [':']) ++ reference.authority.elim [] ("//".toList ++ ·) ++
    reference.path ++ reference.query.elim [] ('?' :: ·) ++ reference.fragment.elim [] ('#' :: ·)

def isHexDigit (c : Char) : Bool := c.isDigit || 'A' ≤ c && c ≤ 'F' || 'a' ≤ c && c ≤ 'f'

/-- Characters that stand for themselves in a segment. -/
def isSegmentChar (c : Char) : Bool :=
  c.isAlphanum || "-._~!$&'()*+,;=:@".toList.contains c

/-- Characters of segments, percent escapes and some further marks. -/
def isWritten (marks : Text) : Text → Bool
  | [] => true
  | '%' :: high :: low :: rest => isHexDigit high && isHexDigit low && isWritten marks rest
  | c :: rest => (isSegmentChar c || marks.contains c) && isWritten marks rest

/-- What a reference may be made of. Authorities have a form of their own. -/
structure Reference.Conforms (isAuthority : Text → Prop) (reference : Reference) : Prop where
  authority : ∀ authority ∈ reference.authority, isAuthority authority
  path : isWritten ['/'] reference.path = true
  query : ∀ query ∈ reference.query, isWritten ['/', '?'] query = true
  fragment : ∀ fragment ∈ reference.fragment, isWritten ['/', '?'] fragment = true
  unambiguous : reference.scheme = none → reference.authority = none →
    ':' ∉ reference.path.takeWhile (· ≠ '/')

def hexValue? (c : Char) : Option Nat :=
  if c.isDigit then some (c.toNat - '0'.toNat)
  else if 'A' ≤ c && c ≤ 'F' then some (c.toNat - 'A'.toNat + 10)
  else if 'a' ≤ c && c ≤ 'f' then some (c.toNat - 'a'.toNat + 10)
  else none

/-- The bytes that a part stands for. A percent sign without two digits stands for itself. -/
def bytes : Text → List UInt8
  | [] => []
  | '%' :: high :: low :: rest =>
    match hexValue? high, hexValue? low with
    | some h, some l => UInt8.ofNat (16 * h + l) :: bytes rest
    | _, _ => String.utf8EncodeChar '%' ++ bytes (high :: low :: rest)
  | c :: rest => String.utf8EncodeChar c ++ bytes rest

variable {mark c : Char} {s front rest scheme path segment : Text} {segments : List Text}

theorem cutAt_append (absent : mark ∉ front) :
    cutAt mark (front ++ mark :: rest) = (front, some rest) := by
  have before : ∀ c ∈ front, decide (c ≠ mark) = true := by
    intro c mem
    exact decide_eq_true (ne_of_mem_of_not_mem mem absent)
  rw [cutAt, List.dropWhile_append_of_pos before, List.takeWhile_append_of_pos before]
  simp

theorem cutAt_of_notMem (absent : mark ∉ s) : cutAt mark s = (s, none) := by
  have before : ∀ c ∈ s, decide (c ≠ mark) = true := by
    intro c mem
    exact decide_eq_true (ne_of_mem_of_not_mem mem absent)
  rw [cutAt, List.dropWhile_eq_nil_iff.mpr before]

theorem cutAt_cases (mark : Char) (s : Text) :
    cutAt mark s = (s, none) ∧ mark ∉ s ∨
      ∃ front rest, cutAt mark s = (front, some rest) ∧ s = front ++ mark :: rest ∧
        mark ∉ front := by
  by_cases mem : mark ∈ s
  · obtain ⟨front, rest, rfl, absent⟩ := List.eq_append_cons_of_mem mem
    exact .inr ⟨front, rest, cutAt_append absent, rfl, absent⟩
  · exact .inl ⟨cutAt_of_notMem mem, mem⟩

theorem isSchemeChar_of_mem (valid : isScheme scheme = true) (mem : c ∈ scheme) :
    isSchemeChar c = true := by
  cases scheme with
  | nil => cases mem
  | cons first rest =>
    simp only [isScheme, Bool.and_eq_true, List.all_eq_true] at valid
    rcases List.mem_cons.mp mem with rfl | later
    · simp [isSchemeChar, Char.isAlphanum, valid.1]
    · exact valid.2 c later

theorem notMem_of_isScheme (valid : isScheme scheme = true) (mark : Char)
    (notInScheme : isSchemeChar mark = false) : mark ∉ scheme := by
  intro mem
  rw [isSchemeChar_of_mem valid mem] at notInScheme
  cases notInScheme

theorem cutScheme_append (valid : isScheme scheme = true) :
    cutScheme (scheme ++ ':' :: rest) = (some scheme, rest) := by
  rw [cutScheme, cutAt_append (notMem_of_isScheme valid ':' (by decide))]
  exact if_pos valid

theorem cutScheme_of_not
    (unschemed : ∀ scheme rest, isScheme scheme = true → s ≠ scheme ++ ':' :: rest) :
    cutScheme s = (none, s) := by
  rcases cutAt_cases ':' s with ⟨cut, _⟩ | ⟨front, rest, cut, same, _⟩
  · rw [cutScheme, cut]
  · rw [cutScheme, cut]
    exact if_neg fun valid => unschemed front rest valid same

/-- The segments of a path, each after its slash. -/
def slashed (segments : List Text) : Text := segments.flatMap ('/' :: ·)

theorem intercalate_cons (segment : Text) (segments : List Text) :
    ['/'].intercalate (segment :: segments) = segment ++ slashed segments := by
  induction segments generalizing segment with
  | nil => simp [slashed, List.intercalate]
  | cons next segments ih =>
    have later := ih next
    simp_all [slashed, List.intercalate]

theorem notMem_append_slashed (notSlash : mark ≠ '/')
    (absent : ∀ part ∈ segment :: segments, mark ∉ part) : mark ∉ segment ++ slashed segments := by
  intro mem
  rcases List.mem_append.mp mem with first | later
  · exact absent _ List.mem_cons_self first
  · obtain ⟨part, inPath, mem⟩ := List.mem_flatMap.mp later
    rcases List.mem_cons.mp mem with slash | mem
    · exact notSlash slash
    · exact absent _ (List.mem_cons_of_mem _ inPath) mem

theorem cutAuthority_of_not (single : ∀ rest, s ≠ '/' :: '/' :: rest) :
    cutAuthority s = (none, s) := by
  unfold cutAuthority
  split
  · exact absurd rfl (single _)
  · rfl

/-- Where only the first segment can be empty, no authority starts. -/
theorem cutAuthority_append_slashed (slashless : ∀ part ∈ segment :: segments, '/' ∉ part)
    (nonempty : ∀ part ∈ segments, part ≠ []) :
    cutAuthority (segment ++ slashed segments) = (none, segment ++ slashed segments) := by
  apply cutAuthority_of_not
  intro rest doubled
  cases segment with
  | cons c segment =>
    obtain ⟨rfl, _⟩ := List.cons.inj doubled
    exact slashless _ List.mem_cons_self List.mem_cons_self
  | nil =>
    cases segments with
    | nil => cases doubled
    | cons next segments =>
      have inPath : next ∈ [] :: next :: segments := by simp
      obtain ⟨c, text, rfl⟩ := List.exists_cons_of_ne_nil (nonempty next List.mem_cons_self)
      obtain ⟨rfl, _⟩ := List.cons.inj (List.cons.inj doubled).2
      exact slashless _ inPath List.mem_cons_self

theorem takeWhile_append_slashed (slashless : '/' ∉ segment) :
    (segment ++ slashed segments).takeWhile (· ≠ '/') = segment := by
  have before : ∀ c ∈ segment, decide (c ≠ '/') = true := by
    intro c mem
    exact decide_eq_true (ne_of_mem_of_not_mem mem slashless)
  rw [List.takeWhile_append_of_pos before]
  cases segments <;> simp [slashed]

/-- A part without a slash that the path starts with, its first segment starts with. -/
theorem exists_of_append_slashed_eq (slashless : '/' ∉ front)
    (same : segment ++ slashed segments = front ++ rest) : ∃ more, segment = front ++ more := by
  rcases List.append_eq_append_iff.mp same with ⟨between, rfl, behind⟩ | ⟨more, whole, _⟩
  · cases between with
    | nil => exact ⟨[], by simp⟩
    | cons c between =>
      cases segments with
      | nil => cases behind
      | cons next segments =>
        obtain ⟨rfl, _⟩ := List.cons.inj behind
        exact absurd (by simp) slashless
  · exact ⟨more, whole⟩

theorem split_append_fragment (noQuery : '?' ∉ path) (noFragment : '#' ∉ path)
    (fragment : Option Text) :
    split (path ++ fragment.elim [] ('#' :: ·)) =
      { scheme := (cutScheme path).1
        authority := (cutAuthority (cutScheme path).2).1
        path := (cutAuthority (cutScheme path).2).2
        query := none
        fragment } := by
  have cut : cutAt '#' (path ++ fragment.elim [] ('#' :: ·)) = (path, fragment) := by
    cases fragment with
    | none => rw [Option.elim_none, List.append_nil, cutAt_of_notMem noFragment]
    | some fragment => rw [Option.elim_some, cutAt_append noFragment]
  rw [split, cut]
  dsimp only
  rw [cutAt_of_notMem noQuery]

/-- Segments are cut nowhere but behind a scheme that the first one starts with. -/
theorem split_segments
    (plain : ∀ part ∈ segment :: segments, '/' ∉ part ∧ '?' ∉ part ∧ '#' ∉ part)
    (nonempty : ∀ part ∈ segments, part ≠ []) (fragment : Option Text) :
    ∃ scheme path,
      split (segment ++ slashed segments ++ fragment.elim [] ('#' :: ·)) =
          ⟨scheme, none, path, none, fragment⟩ ∧
        (scheme = none ∧ path = segment ++ slashed segments ∧
            (∀ name more, isScheme name = true → segment ≠ name ++ ':' :: more) ∨
          ∃ name more, isScheme name = true ∧ scheme = some name ∧
            segment = name ++ ':' :: more ∧ path = more ++ slashed segments) := by
  have slashless : ∀ part ∈ segment :: segments, '/' ∉ part := fun part mem => (plain part mem).1
  have noQuery : '?' ∉ segment ++ slashed segments :=
    notMem_append_slashed (by decide) fun part mem => (plain part mem).2.1
  have noFragment : '#' ∉ segment ++ slashed segments :=
    notMem_append_slashed (by decide) fun part mem => (plain part mem).2.2
  rw [split_append_fragment noQuery noFragment]
  by_cases starts : ∃ name more, isScheme name = true ∧ segment = name ++ ':' :: more
  · obtain ⟨name, more, valid, rfl⟩ := starts
    have restSlashless : ∀ part ∈ more :: segments, '/' ∉ part := by
      obtain ⟨first, others⟩ := List.forall_mem_cons.mp slashless
      exact List.forall_mem_cons.mpr ⟨fun mem => first (by simp [mem]), others⟩
    rw [List.append_assoc, List.cons_append, cutScheme_append valid]
    dsimp only
    rw [cutAuthority_append_slashed restSlashless nonempty]
    exact ⟨_, _, rfl, .inr ⟨name, more, valid, rfl, rfl, rfl⟩⟩
  · have unschemed : ∀ name more, isScheme name = true → segment ≠ name ++ ':' :: more :=
      fun name more valid same => starts ⟨name, more, valid, same⟩
    have uncut : cutScheme (segment ++ slashed segments) = (none, segment ++ slashed segments) := by
      apply cutScheme_of_not
      intro name rest valid same
      have unslashed : '/' ∉ name ++ [':'] := by
        simp [notMem_of_isScheme valid '/' (by decide)]
      rw [← List.singleton_append, ← List.append_assoc] at same
      obtain ⟨more, whole⟩ := exists_of_append_slashed_eq unslashed same
      exact unschemed name more valid (by simp [whole])
    rw [uncut]
    dsimp only
    rw [cutAuthority_append_slashed slashless nonempty]
    exact ⟨_, _, rfl, .inl ⟨rfl, rfl, unschemed⟩⟩

/-- Cutting loses nothing. -/
theorem write_split (s : Text) : (split s).write = s := by
  have whole (mark : Char) (s : Text) :
      (cutAt mark s).1 ++ (cutAt mark s).2.elim [] (mark :: ·) = s := by
    rcases cutAt_cases mark s with ⟨cut, _⟩ | ⟨front, rest, cut, rfl, _⟩ <;> simp [cut]
  have afterScheme (s : Text) :
      (cutScheme s).1.elim [] (· ++ [':']) ++ (cutScheme s).2 = s := by
    rcases cutAt_cases ':' s with ⟨cut, _⟩ | ⟨front, rest, cut, same, _⟩
    · simp [cutScheme, cut]
    · rw [cutScheme, cut]
      dsimp only
      split <;> simp [same]
  have afterAuthority (s : Text) :
      (cutAuthority s).1.elim [] ("//".toList ++ ·) ++ (cutAuthority s).2 = s := by
    unfold cutAuthority
    split <;> simp
  rw [Reference.write, split]
  dsimp only
  rw [List.append_assoc (Option.elim ..), afterAuthority, afterScheme, whole '?', whole '#']

theorem isWritten_cons (marks : Text) (unescaped : c ≠ '%') (rest : Text) :
    isWritten marks (c :: rest) =
      ((isSegmentChar c || marks.contains c) && isWritten marks rest) := by
  rw [isWritten]
  rintro _ _ _ rfl _
  exact unescaped rfl

theorem isSegmentChar_of_isSchemeChar (inScheme : isSchemeChar c = true) :
    isSegmentChar c = true := by
  have among : "+-.".toList ⊆ "-._~!$&'()*+,;=:@".toList := by simp
  simp only [isSchemeChar, isSegmentChar, Bool.or_eq_true, List.contains_eq_mem,
    decide_eq_true_eq] at inScheme ⊢
  exact inScheme.imp_right fun mem => among mem

/-- A scheme and its colon could as well stand in a segment. -/
theorem isWritten_append_scheme (marks : Text) (valid : isScheme scheme = true) (rest : Text) :
    isWritten marks (scheme ++ ':' :: rest) = isWritten marks rest := by
  have chars : ∀ c ∈ scheme, isSchemeChar c = true := fun c => isSchemeChar_of_mem valid
  clear valid
  induction scheme with
  | nil =>
    rw [List.nil_append, isWritten_cons marks (by decide)]
    rfl
  | cons c scheme ih =>
    obtain ⟨first, chars⟩ := List.forall_mem_cons.mp chars
    have unescaped : c ≠ '%' := by
      rintro rfl
      exact absurd first (by decide)
    rw [List.cons_append, isWritten_cons marks unescaped, ih chars,
      isSegmentChar_of_isSchemeChar first]
    rfl

end Hyperlisting.Uri
