import Hyperlisting.Proofs.Index.Table

/-! How the declarations of a file are nested. The open functions and classes are a stack, so what
is nested in a declaration follows it without a gap, and the declarations of a file in their order
are a forest written down from the left, each tree with its root first. -/

namespace Hyperlisting

/-- Trees side by side: the first one, with those nested in it, and the rest. -/
inductive Forest where
  | nil
  | tree (id : Nat) (declaration : Declaration) (inside rest : Forest)

namespace Forest

variable {forest : Forest} {parent : Option Nat} {entry : Nat × Declaration}

/-- All declarations, each in front of those nested in it. -/
def entries : Forest → List (Nat × Declaration)
  | nil => []
  | tree id declaration inside rest => (id, declaration) :: (inside.entries ++ rest.entries)

def roots : Forest → List (Nat × Declaration)
  | nil => []
  | tree id declaration _ rest => (id, declaration) :: rest.roots

def append : Forest → Forest → Forest
  | nil, more => more
  | tree id declaration inside rest, more => tree id declaration inside (rest.append more)

theorem entries_append (forest more : Forest) :
    (forest.append more).entries = forest.entries ++ more.entries := by
  induction forest with
  | nil => rfl
  | tree id declaration inside rest _ ih => simp [append, entries, ih]

/-- Each declaration names the one that it is nested in, and the roots name `parent`. -/
def Under : Option Nat → Forest → Prop
  | _, nil => True
  | parent, tree id declaration inside rest =>
    declaration.parent = parent ∧ inside.Under (some id) ∧ rest.Under parent

theorem under_nil (parent : Option Nat) : nil.Under parent := trivial

theorem Under.append {more : Forest} (under : forest.Under parent)
    (moreUnder : more.Under parent) : (forest.append more).Under parent := by
  induction forest with
  | nil => exact moreUnder
  | tree id declaration inside rest _ ih => exact ⟨under.1, under.2.1, ih under.2.2⟩

/-- What is around a declaration is the parent of all or another one of them. -/
theorem Under.parent_mem (under : forest.Under parent) (mem : entry ∈ forest.entries) :
    entry.2.parent ∈ parent :: forest.entries.map (some ·.1) := by
  induction forest generalizing parent with
  | nil => cases mem
  | tree id declaration inside rest insideIh restIh =>
    obtain ⟨root, insideUnder, restUnder⟩ := under
    simp only [entries, List.mem_cons, List.mem_append, List.map_cons, List.map_append] at mem ⊢
    rcases mem with rfl | mem | mem
    · exact .inl root
    · rcases List.mem_cons.mp (insideIh insideUnder mem) with own | nested
      · exact .inr (.inl own)
      · exact .inr (.inr (.inl nested))
    · rcases List.mem_cons.mp (restIh restUnder mem) with own | nested
      · exact .inl own
      · exact .inr (.inr (.inr nested))

/-- No two declarations have one number, and none has that of what is around them. -/
def Fresh (parent : Option Nat) (forest : Forest) : Prop :=
  (parent :: forest.entries.map (some ·.1)).Nodup

theorem fresh_tree_iff {id : Nat} {declaration : Declaration} {inside rest : Forest} :
    (tree id declaration inside rest).Fresh parent ↔
      inside.Fresh (some id) ∧ rest.Fresh parent ∧
        List.Disjoint (some id :: inside.entries.map (some ·.1))
          (parent :: rest.entries.map (some ·.1)) := by
  have moved : (parent :: (tree id declaration inside rest).entries.map (some ·.1)).Perm
      ((some id :: inside.entries.map (some ·.1)) ++ parent :: rest.entries.map (some ·.1)) := by
    have middle : ((some id :: inside.entries.map (some ·.1)) ++
        parent :: rest.entries.map (some ·.1)).Perm _ := List.perm_middle
    simpa [entries] using middle.symm
  rw [Fresh, moved.nodup_iff, List.nodup_append']
  rfl

theorem fresh_none (distinct : (forest.entries.map Prod.fst).Nodup) : forest.Fresh none := by
  rw [Fresh, List.nodup_cons]
  constructor
  · simp
  · have numbers := distinct.map fun _ _ => Option.some.inj
    rwa [List.map_map] at numbers

end Forest

namespace Declaration

/-- The forests that are still open, innermost first: one in each scope of a stack, and one in none.
-/
inductive Layers : List Nat → List (Nat × Declaration) → Prop
  | outermost {forest : Forest} : forest.Under none → Layers [] forest.entries
  | scope {id : Nat} {ids : List Nat} {forest : Forest} {rest : List (Nat × Declaration)} :
    forest.Under (some id) → Layers ids rest → Layers (id :: ids) (forest.entries ++ rest)

variable {id : Nat} {ids : List Nat} {rest : List (Nat × Declaration)} {declaration : Declaration}

/-- A declaration stands in the innermost scope, in front of what is there. -/
theorem Layers.tree {inside : Forest} (nested : inside.Under (some id)) (layers : Layers ids rest)
    (parent : declaration.parent = ids.head?) :
    Layers ids ((id, declaration) :: (inside.entries ++ rest)) := by
  cases layers with
  | @outermost forest under =>
    have whole : (Forest.tree id declaration inside forest).Under none := ⟨parent, nested, under⟩
    exact .outermost whole
  | @scope around ids forest rest under others =>
    have whole : (Forest.tree id declaration inside forest).Under (some around) :=
      ⟨parent, nested, under⟩
    simpa [Forest.entries] using Layers.scope whole others

/-- Nothing needs to stand in a scope that is closed. -/
theorem Layers.of_suffix {closed : List Nat} (layers : Layers ids rest) :
    Layers (closed ++ ids) rest := by
  induction closed with
  | nil => exact layers
  | cons id closed ih => exact .scope (Forest.under_nil _) ih

theorem Layers.exists_forest {entries : List (Nat × Declaration)}
    (layers : Layers (id :: ids) entries) :
    ∃ (forest : Forest) (rest : _), entries = forest.entries ++ rest ∧ forest.Under (some id) ∧
      Layers ids rest := by
  cases layers with
  | scope under others => exact ⟨_, _, rfl, under, others⟩

/-- Declarations with their numbers from `first` on. -/
def number (first : Nat) (declarations : List Declaration) : List (Nat × Declaration) :=
  (declarations.zipIdx first).map Prod.swap

/-- What is declared stands in the open scopes. -/
theorem layers_collect (file : Path) (id : Nat) (scopes : List Scope) (tokens : List Token) :
    Layers (scopes.map Scope.id) (number id (collect file id scopes tokens)) := by
  fun_induction collect file id scopes tokens with
  | case1 id scopes =>
    have none : Layers (scopes.map Scope.id ++ []) [] :=
      .of_suffix (.outermost (Forest.under_nil none))
    rwa [List.append_nil] at none
  | case2 id scopes token tokens _ ih => exact ih
  | case3 id scopes token tokens kind name introduced indent outer inner ih =>
    obtain ⟨closed, split⟩ := List.dropWhile_suffix (fun scope : Scope => indent ≤ scope.indent)
      (l := scopes)
    rw [← split, List.map_append]
    apply Layers.of_suffix
    have parent : (outer.map Scope.id).head? = outer.head?.map Scope.id := List.head?_map
    by_cases binds : kind = .assignment
    · have same : inner.map Scope.id = outer.map Scope.id := congrArg _ (if_pos binds)
      rw [same] at ih
      exact .tree (Forest.under_nil _) ih parent.symm
    · have opened : inner.map Scope.id = id :: outer.map Scope.id := congrArg _ (if_neg binds)
      rw [opened] at ih
      obtain ⟨nested, rest, numbered, under, others⟩ := ih.exists_forest
      change Layers _ ((id, _) :: number (id + 1) (collect file (id + 1) inner tokens))
      rw [numbered]
      exact .tree under others parent.symm

/-- At the end of a text only the forest in no scope is left. -/
theorem exists_forest_ofSource (file : Path) (source : Text) (first : Nat) :
    ∃ forest : Forest, number first (ofSource file source first) = forest.entries ∧
      forest.Under none := by
  have layers := layers_collect file first [] (Token.tokenize source)
  rw [ofSource]
  generalize number first (collect file first [] (Token.tokenize source)) = entries at layers ⊢
  cases layers with
  | outermost under => exact ⟨_, rfl, under⟩

end Declaration

namespace Index

open Declaration

variable {index : Index} {file : Path} {files : List (Path × Text)} {id : Nat}
  {declaration : Declaration}

theorem entries_eq_number (index : Index) :
    index.entries = number 0 index.declarations.toList := by
  have shown : ∀ entry ∈ index.declarations.toList.zipIdx,
      index.numbered? entry.2 = some entry.swap := by
    rintro ⟨declaration, id⟩ mem
    rw [List.mk_mem_zipIdx_iff_getElem?, Array.getElem?_toList] at mem
    rw [numbered?, mem]
    rfl
  have places := List.zipIdx_map_snd 0 index.declarations.toList
  rw [← List.range_eq_range', Array.length_toList] at places
  rw [entries, ← places, List.filterMap_map, number, ← List.filterMap_eq_map]
  exact List.filterMap_congr shown

theorem mem_entries : (id, declaration) ∈ index.entries ↔
    index.declarations[id]? = some declaration := by
  rw [entries, List.mem_filterMap]
  constructor
  · rintro ⟨_, -, shown⟩
    obtain ⟨_, found, same⟩ := Option.map_eq_some_iff.mp shown
    cases same
    exact found
  · intro found
    have bound := (Array.getElem?_eq_some_iff.mp found).1
    exact ⟨id, List.mem_range.mpr bound, by rw [numbered?, found]; rfl⟩

theorem nodup_entries (index : Index) : (index.entries.map Prod.fst).Nodup := by
  have ascending := List.zipIdx_map_snd 0 index.declarations.toList
  rw [entries_eq_number, number, List.map_map]
  exact ascending ▸ List.nodup_range'

theorem entries_addFile (index : Index) (file : Path) (source : Text) :
    (index.addFile file source).entries =
      index.entries ++ number index.declarations.size (index.found file source) := by
  rw [entries_eq_number, declarations_addFile, entries_eq_number, number, List.zipIdx_append,
    List.map_append, Nat.zero_add, Array.length_toList]
  rfl

/-- What a call adds belongs to its file, all of it. -/
theorem filter_number_found (index : Index) (added : Path) (source : Text) (file : Path) :
    (number index.declarations.size (index.found added source)).filter (·.2.file.sameAs file) =
      if added.sameAs file then number index.declarations.size (index.found added source)
      else [] := by
  have same : ∀ entry ∈ number index.declarations.size (index.found added source),
      entry.2.file = added := by
    intro entry mem
    obtain ⟨⟨declaration, id⟩, declared, rfl⟩ := List.mem_map.mp mem
    have declared := List.fst_mem_of_mem_zipIdx declared
    exact (adds_found index added source).file_eq _ declared
  split
  case isTrue own =>
    refine List.filter_eq_self.mpr fun entry mem => ?_
    rw [same entry mem, own]
  case isFalse other =>
    refine List.filter_eq_nil_iff.mpr fun entry mem => ?_
    rwa [same entry mem]

/-- What is around a declaration was added by the same call, and so is of the same file. -/
theorem exists_forest_filter (files : List (Path × Text)) (file : Path) :
    ∃ forest : Forest, (ofFiles files).entries.filter (·.2.file.sameAs file) = forest.entries ∧
      forest.Under none := by
  induction files using List.reverseRecOn with
  | nil => exact ⟨.nil, rfl, trivial⟩
  | append_singleton files added ih =>
    obtain ⟨added, source⟩ := added
    obtain ⟨earlier, filtered, earlierUnder⟩ := ih
    have last : ofFiles (files ++ [(added, source)]) = (ofFiles files).addFile added source :=
      List.foldl_concat ..
    rw [last, entries_addFile, List.filter_append, filtered, filter_number_found]
    split
    · obtain ⟨forest, numbered, under⟩ := exists_forest_ofSource added source
        (ofFiles files).declarations.size
      refine ⟨earlier.append forest, ?_, earlierUnder.append under⟩
      rw [Forest.entries_append, ← numbered]
      rfl
    · exact ⟨earlier, List.append_nil _, earlierUnder⟩

/-- However files are added, the declarations of each are a forest. -/
theorem exists_forest (files : List (Path × Text)) (file : Path) :
    ∃ forest : Forest, (ofFiles files).declarationsIn file = forest.entries ∧
      forest.Under none ∧ forest.Fresh none := by
  obtain ⟨forest, filtered, under⟩ := exists_forest_filter files file
  refine ⟨forest, ?_, under, Forest.fresh_none ?_⟩
  · rw [(consistent_ofFiles files).faithful.declarationsIn, filtered]
  · have numbers : ((ofFiles files).entries.filter (·.2.file.sameAs file)).Sublist
        (ofFiles files).entries := List.filter_sublist
    exact filtered ▸ (nodup_entries _).sublist (numbers.map _)

end Index

end Hyperlisting
