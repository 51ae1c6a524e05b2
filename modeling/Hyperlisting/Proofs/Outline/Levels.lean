import Hyperlisting.Outline
import Hyperlisting.Proofs.Declaration.Forest

/-! The items of an outline. Written level by level, each level looks for its items among all
declarations of the file. Parents come first and lie within the file, so this ends, and it writes
down the forest of the declarations. -/

namespace Hyperlisting

/-- The item of a declaration, with the list of what is nested in it. -/
def Outline.wholeItem (declaration : Declaration) (inside : Text) : Text :=
  "<li>".toList ++ Outline.entry declaration ++ inside ++ "</li>\n".toList

namespace Forest

/-- The list around the items of some trees. -/
def inList : Forest → Text → Text
  | nil, _ => []
  | tree .., items => "<ul>\n".toList ++ items ++ "</ul>\n".toList

/-- The trees as items, each with a list of what is nested in it. -/
def print : Forest → Text
  | nil => []
  | tree _ declaration inside rest =>
    Outline.wholeItem declaration (inside.inList inside.print) ++ rest.print

end Forest

namespace Outline

open Forest

variable {forest : Forest} {parent : Option Nat} {entries more : List (Nat × Declaration)}

theorem list_entries (under : forest.Under parent) (text : Text) :
    list parent forest.entries text = forest.inList text := by
  cases forest with
  | nil => rfl
  | tree id declaration inside rest => simp [list, hasChildren, entries, inList, under.1]

theorem items_skip (other : ∀ entry ∈ entries, entry.2.parent ≠ parent) :
    items parent (entries ++ more) = items parent more := by
  induction entries with
  | nil => rfl
  | cons entry entries ih =>
    obtain ⟨here, later⟩ := List.forall_mem_cons.mp other
    rw [List.cons_append, items, if_neg here, ih later]

theorem list_append (other : ∀ entry ∈ more, entry.2.parent ≠ parent) (text : Text) :
    list parent (entries ++ more) text = list parent entries text := by
  have none : hasChildren parent more = false := by simpa [hasChildren] using other
  rw [list, list, hasChildren, List.any_append]
  change (if (hasChildren parent entries || hasChildren parent more) then _ else _) = _
  rw [none, Bool.or_false]

/-- What is nested in nothing here adds no items. -/
theorem items_append (foreign : ∀ entry ∈ more,
    entry.2.parent ∉ parent :: entries.map (some ·.1)) :
    items parent (entries ++ more) = items parent entries := by
  induction entries generalizing parent with
  | nil =>
    have skipped : items parent (more ++ []) = items parent [] :=
      items_skip fun entry mem => by simpa using foreign entry mem
    rwa [List.append_nil] at skipped
  | cons first entries ih =>
    obtain ⟨id, declaration⟩ := first
    have notOwn : ∀ entry ∈ more, entry.2.parent ∉ parent :: entries.map (some ·.1) := by
      intro entry mem own
      refine foreign entry mem (List.Sublist.subset ?_ own)
      exact .cons_cons _ (.cons _ (.refl _))
    have notNested : ∀ entry ∈ more, entry.2.parent ∉ some id :: entries.map (some ·.1) :=
      fun entry mem => List.not_mem_of_not_mem_cons (foreign entry mem)
    have noChild : ∀ entry ∈ more, entry.2.parent ≠ some id :=
      fun entry mem => List.ne_of_not_mem_cons (notNested entry mem)
    rw [List.cons_append, items, items, ih notOwn, ih notNested, list_append noChild]

/-- The items of a forest are those of its trees. -/
theorem items_entries (under : forest.Under parent) (fresh : forest.Fresh parent) :
    items parent forest.entries = forest.print := by
  induction forest generalizing parent with
  | nil => rfl
  | tree id declaration inside rest insideIh restIh =>
    obtain ⟨root, insideUnder, restUnder⟩ := under
    obtain ⟨insideFresh, restFresh, apart⟩ := fresh_tree_iff.mp fresh
    have behind : ∀ entry ∈ rest.entries,
        entry.2.parent ∉ some id :: inside.entries.map (some ·.1) :=
      fun entry mem nested => apart nested (restUnder.parent_mem mem)
    have beneath : ∀ entry ∈ inside.entries, entry.2.parent ≠ parent := by
      intro entry mem same
      exact apart (insideUnder.parent_mem mem) (same ▸ List.mem_cons_self)
    have noChild : ∀ entry ∈ rest.entries, entry.2.parent ≠ some id :=
      fun entry mem => List.ne_of_not_mem_cons (behind entry mem)
    rw [entries, items, if_pos root, items_append behind, items_skip beneath,
      list_append noChild, insideIh insideUnder insideFresh, restIh restUnder restFresh,
      list_entries insideUnder, print, wholeItem]

/-- An item, with whatever is inside of it. -/
def item (inside : Option Nat → Option Text) (entry : Nat × Declaration) : Option Text :=
  (inside (some entry.1)).map (wholeItem entry.2)

/-- The list of what is nested in a parent among all declarations, none if that goes deeper than
`depth`. -/
def level (declarations : List (Nat × Declaration)) : (depth : Nat) → Option Nat → Option Text
  | 0, _ => none
  | depth + 1, parent =>
    let children := declarations.filter (·.2.parent = parent)
    if children.isEmpty then some []
    else (children.mapM (item (level declarations depth))).map fun items =>
      "<ul>\n".toList ++ items.flatten ++ "</ul>\n".toList

section Children

variable {id : Nat} {declaration : Declaration} {inside rest : Forest} {child : Option Nat}

theorem filter_of_ne (other : ∀ entry ∈ entries, entry.2.parent ≠ child) :
    entries.filter (·.2.parent = child) = [] :=
  List.filter_eq_nil_iff.mpr fun entry mem => by simpa using other entry mem

theorem filter_inside (under : (tree id declaration inside rest).Under parent)
    (fresh : (tree id declaration inside rest).Fresh parent)
    (nested : child ∈ some id :: inside.entries.map (some ·.1)) :
    (tree id declaration inside rest).entries.filter (·.2.parent = child) =
      inside.entries.filter (·.2.parent = child) := by
  obtain ⟨root, -, restUnder⟩ := under
  obtain ⟨-, -, apart⟩ := fresh_tree_iff.mp fresh
  have notRoot : declaration.parent ≠ child := by
    rintro rfl
    exact apart nested (root ▸ List.mem_cons_self)
  have behind : rest.entries.filter (·.2.parent = child) = [] := by
    apply filter_of_ne
    rintro entry mem rfl
    exact apart nested (restUnder.parent_mem mem)
  rw [entries, List.filter_cons_of_neg (by simpa using notRoot), List.filter_append, behind,
    List.append_nil]

theorem filter_rest (under : (tree id declaration inside rest).Under parent)
    (fresh : (tree id declaration inside rest).Fresh parent)
    (later : child ∈ rest.entries.map (some ·.1)) :
    (tree id declaration inside rest).entries.filter (·.2.parent = child) =
      rest.entries.filter (·.2.parent = child) := by
  obtain ⟨root, insideUnder, -⟩ := under
  obtain ⟨-, restFresh, apart⟩ := fresh_tree_iff.mp fresh
  have notRoot : declaration.parent ≠ child := by
    rintro rfl
    exact (List.nodup_cons.mp restFresh).1 (root ▸ later)
  have beneath : inside.entries.filter (·.2.parent = child) = [] := by
    apply filter_of_ne
    rintro entry mem rfl
    exact apart (insideUnder.parent_mem mem) (List.mem_cons_of_mem _ later)
  rw [entries, List.filter_cons_of_neg (by simpa using notRoot), List.filter_append, beneath,
    List.nil_append]

/-- What names the parent of all are the roots. -/
theorem filter_entries (under : forest.Under parent) (fresh : forest.Fresh parent) :
    forest.entries.filter (·.2.parent = parent) = forest.roots := by
  induction forest with
  | nil => rfl
  | tree id declaration inside rest _ ih =>
    obtain ⟨root, insideUnder, restUnder⟩ := under
    obtain ⟨-, restFresh, apart⟩ := fresh_tree_iff.mp fresh
    have beneath : inside.entries.filter (·.2.parent = parent) = [] := by
      apply filter_of_ne
      intro entry mem same
      exact apart (insideUnder.parent_mem mem) (same ▸ List.mem_cons_self)
    rw [entries, List.filter_cons_of_pos (by simpa using root), List.filter_append, beneath,
      List.nil_append, ih restUnder restFresh, roots]

end Children

/-- Among all declarations, those that name a tree's root are the roots of what is nested in it. -/
def Closed (declarations : List (Nat × Declaration)) : Forest → Prop
  | .nil => True
  | .tree id _ inside rest =>
    declarations.filter (·.2.parent = some id) = inside.roots ∧ Closed declarations inside ∧
      Closed declarations rest

variable {declarations : List (Nat × Declaration)} {depth : Nat}

/-- Looking among more declarations finds no more, as long as none of them is nested in these. -/
theorem closed_of_filter (under : forest.Under parent) (fresh : forest.Fresh parent)
    (same : ∀ child ∈ forest.entries.map (some ·.1),
      declarations.filter (·.2.parent = child) = forest.entries.filter (·.2.parent = child)) :
    Closed declarations forest := by
  induction forest generalizing parent with
  | nil => trivial
  | tree id declaration inside rest insideIh restIh =>
    obtain ⟨insideFresh, restFresh, -⟩ := fresh_tree_iff.mp fresh
    have numbers : (tree id declaration inside rest).entries.map (some ·.1) =
        (some id :: inside.entries.map (some ·.1)) ++ rest.entries.map (some ·.1) := by
      simp [entries]
    have inInside : ∀ child ∈ some id :: inside.entries.map (some ·.1),
        declarations.filter (·.2.parent = child) =
          inside.entries.filter (·.2.parent = child) := by
      intro child nested
      rw [same child (numbers ▸ List.mem_append_left _ nested), filter_inside under fresh nested]
    have inRest : ∀ child ∈ rest.entries.map (some ·.1),
        declarations.filter (·.2.parent = child) = rest.entries.filter (·.2.parent = child) := by
      intro child later
      rw [same child (numbers ▸ List.mem_append_right _ later), filter_rest under fresh later]
    refine ⟨?_, ?_, ?_⟩
    · rw [inInside _ List.mem_cons_self, filter_entries under.2.1 insideFresh]
    · exact insideIh under.2.1 insideFresh fun child mem =>
        inInside child (List.mem_cons_of_mem _ mem)
    · exact restIh under.2.2 restFresh inRest

theorem level_of_parts {parts : List Text}
    (found : declarations.filter (·.2.parent = parent) = forest.roots)
    (written : forest.roots.mapM (item (level declarations depth)) = some parts)
    (whole : parts.flatten = forest.print) :
    level declarations (depth + 1) parent = some (forest.inList forest.print) := by
  rw [level, found]
  cases forest with
  | nil => rfl
  | tree id declaration inside rest =>
    rw [written, ← whole]
    rfl

/-- To a depth of the number of declarations each item is written in full. -/
theorem mapM_item (closed : Closed declarations forest) (deep : forest.entries.length ≤ depth) :
    ∃ parts : List Text, forest.roots.mapM (item (level declarations depth)) = some parts ∧
      parts.flatten = forest.print := by
  induction forest generalizing depth with
  | nil => exact ⟨[], rfl, rfl⟩
  | tree id declaration inside rest insideIh restIh =>
    obtain ⟨found, insideClosed, restClosed⟩ := closed
    rw [entries, List.length_cons, List.length_append] at deep
    cases depth with
    | zero => omega
    | succ depth =>
      have insideDeep : inside.entries.length ≤ depth := by omega
      have restDeep : rest.entries.length ≤ depth + 1 := by omega
      obtain ⟨nested, nestedWritten, nestedWhole⟩ := insideIh insideClosed insideDeep
      obtain ⟨later, laterWritten, laterWhole⟩ := restIh restClosed restDeep
      have first : item (level declarations (depth + 1)) (id, declaration) =
          some (wholeItem declaration (inside.inList inside.print)) := by
        rw [item, level_of_parts found nestedWritten nestedWhole]
        rfl
      refine ⟨wholeItem declaration (inside.inList inside.print) :: later, ?_, ?_⟩
      · rw [roots, List.mapM_cons, first, laterWritten]
        rfl
      · rw [List.flatten_cons, laterWhole, print]

/-- Level by level, the declarations of a file come to an end, as the forest that they are. -/
theorem level_entries (under : forest.Under none) (fresh : forest.Fresh none) :
    level forest.entries (forest.entries.length + 1) none = some (forest.inList forest.print) := by
  have closed : Closed forest.entries forest := closed_of_filter under fresh fun _ _ => rfl
  obtain ⟨parts, written, whole⟩ := mapM_item closed (Nat.le_refl _)
  exact level_of_parts (filter_entries under fresh) written whole

end Outline

end Hyperlisting
