import Mathlib.Data.List.Induction
import Hyperlisting.Index
import Hyperlisting.Proofs.Declaration

/-! The index as one table. Its views by name and by file hold exactly the places of the
declarations of that name and of that file, in the order of the table, so looking up is filtering
the table. -/

namespace Hyperlisting

theorem Path.sameAs_comm (path other : Path) : path.sameAs other = other.sameAs path := by
  rw [Bool.eq_iff_iff, Path.sameAs_iff, Path.sameAs_iff, eq_comm]

namespace Index

variable {index : Index} {declaration : Declaration} {file : Path} {source name : Text}
  {files : List (Path × Text)}

/-- The places of a table at which a property holds, ascending. -/
def places (declarations : Array Declaration) (holds : Declaration → Bool) : List Nat :=
  (List.range declarations.size).filter fun id => declarations[id]?.any holds

theorem places_push (declarations : Array Declaration) (declaration : Declaration)
    (holds : Declaration → Bool) :
    places (declarations.push declaration) holds =
      places declarations holds ++ if holds declaration then [declarations.size] else [] := by
  have earlier : ∀ id ∈ List.range declarations.size,
      (declarations.push declaration)[id]?.any holds = declarations[id]?.any holds := by
    intro id mem
    rw [Array.getElem?_push, if_neg (Nat.ne_of_lt (List.mem_range.mp mem))]
  rw [places, Array.size_push, List.range_succ, List.filter_append, List.filter_congr earlier]
  simp [places, List.filter_cons]

theorem filterMap_places (declarations : Array Declaration) (holds : Declaration → Bool) :
    (places declarations holds).filterMap (declarations[·]?) =
      declarations.toList.filter holds := by
  obtain ⟨table⟩ := declarations
  induction table using List.reverseRecOn with
  | nil => rfl
  | append_singleton table declaration ih =>
    have kept : (places table.toArray holds).filterMap ((table ++ [declaration])[·]?) =
        (places table.toArray holds).filterMap (table[·]?) := by
      apply List.filterMap_congr
      intro id mem
      have bound := List.mem_range.mp (List.mem_filter.mp mem).1
      exact List.getElem?_append_left bound
    have pushed := places_push table.toArray declaration holds
    rw [List.push_toArray] at pushed
    simp only [List.getElem?_toArray] at ih ⊢
    rw [pushed, List.filterMap_append, kept, ih, List.filter_append]
    cases held : holds declaration <;> simp [held]

/-- The views hold the places of the table, by name and by file. -/
structure Consistent (index : Index) : Prop where
  byName : ∀ name, (index.byName.getD name #[]).toList =
    places index.declarations fun declaration => declaration.name = name
  byFile : ∀ file, (index.byFile.getD file #[]).toList =
    places index.declarations fun declaration => declaration.file.sameAs file

theorem consistent_empty : Consistent {} :=
  ⟨fun _ => rfl, fun _ => rfl⟩

theorem Consistent.insert (consistent : index.Consistent) (declaration : Declaration) :
    (index.insert declaration).Consistent := by
  constructor
  case byName =>
    intro name
    rw [Index.insert, places_push, ← consistent.byName, Std.TreeMap.getD_insert]
    by_cases same : declaration.name = name
    · subst same
      simp
    · simp [same]
  case byFile =>
    intro file
    rw [Index.insert, places_push, ← consistent.byFile, Std.TreeMap.getD_insert]
    by_cases same : compare declaration.file file = .eq
    · have sameFile := Path.sameAs_iff.mpr (Path.compare_eq_iff.mp same)
      rw [Std.TreeMap.getD_congr same]
      simp [same, sameFile]
    · have otherFile := mt (Path.compare_eq_iff.mpr ∘ Path.sameAs_iff.mp) same
      simp [same, otherFile]

theorem Consistent.addFile (consistent : index.Consistent) (file : Path) (source : Text) :
    (index.addFile file source).Consistent := by
  have views : ((index.found file source).foldl Index.insert index).Consistent :=
    List.foldlRecOn _ _ consistent fun _ consistent declaration _ => consistent.insert declaration
  exact ⟨views.byName, views.byFile⟩

theorem Consistent.lookup_eq (consistent : index.Consistent) (name : Text) :
    index.lookup name = index.declarations.toList.filter (·.name = name) := by
  rw [lookup, consistent.byName, filterMap_places]

theorem Consistent.map_declarationsIn_eq (consistent : index.Consistent) (file : Path) :
    (index.declarationsIn file).map Prod.snd =
      index.declarations.toList.filter (·.file.sameAs file) := by
  rw [declarationsIn, consistent.byFile, ← filterMap_places, List.map_filterMap]
  simp [numbered?, Function.comp_def]

theorem declarations_foldl_insert (index : Index) (found : List Declaration) :
    (found.foldl Index.insert index).declarations.toList =
      index.declarations.toList ++ found := by
  induction found generalizing index with
  | nil => simp
  | cons declaration found ih =>
    rw [List.foldl_cons, ih]
    simp [Index.insert]

/-- The index of some files, added one after the other. -/
def ofFiles (files : List (Path × Text)) : Index :=
  files.foldl (fun index (file, source) => index.addFile file source) {}

theorem consistent_ofFiles (files : List (Path × Text)) : (ofFiles files).Consistent :=
  List.foldlRecOn _ _ consistent_empty
    fun _ consistent (file, source) _ => consistent.addFile file source

theorem mem_declarations_foldl_addFile
    (mem : declaration ∈ (files.foldl
      (fun index (file, source) => index.addFile file source) index).declarations.toList) :
    declaration ∈ index.declarations.toList ∨
      ∃ added ∈ files, ∃ first, declaration ∈ Declaration.ofSource added.1 added.2 first := by
  induction files generalizing index with
  | nil => exact .inl mem
  | cons added files ih =>
    obtain ⟨file, source⟩ := added
    rcases ih mem with inTable | ⟨added, inFiles, found⟩
    · have table : (index.addFile file source).declarations.toList =
          index.declarations.toList ++ index.found file source :=
        declarations_foldl_insert index (index.found file source)
      rw [table] at inTable
      rcases List.mem_append.mp inTable with earlier | new
      · exact .inl earlier
      · exact .inr ⟨_, List.mem_cons_self, _, new⟩
    · exact .inr ⟨added, List.mem_cons_of_mem _ inFiles, found⟩

/-- Every declaration of the table comes from one of the files. -/
theorem exists_of_mem_declarations (mem : declaration ∈ (ofFiles files).declarations.toList) :
    ∃ added ∈ files, ∃ first, declaration ∈ Declaration.ofSource added.1 added.2 first := by
  rcases mem_declarations_foldl_addFile mem with none | found
  · cases none
  · exact found

/-- What the index has of a file was declared in a text that was added for it. -/
theorem exists_of_mem_declarationsIn
    (mem : declaration ∈ ((ofFiles files).declarationsIn file).map Prod.snd) :
    ∃ added ∈ files, added.1.sameAs file = true ∧
      ∃ name, Declaration.Declares (Token.tokenize added.2) name ∧ declaration.StandsAt name := by
  rw [(consistent_ofFiles files).map_declarationsIn_eq, List.mem_filter] at mem
  obtain ⟨inTable, sameFile⟩ := mem
  obtain ⟨added, inFiles, first, found⟩ := exists_of_mem_declarations inTable
  obtain ⟨fileEq, site⟩ := Declaration.mem_ofSource found
  exact ⟨added, inFiles, fileEq ▸ sameFile, site⟩

/-- A file that was added once has one text. -/
theorem filter_sameAs_eq {added : Path × Text}
    (apart : files.Pairwise fun added other => added.1.sameAs other.1 = false)
    (mem : added ∈ files) : files.filter (·.1.sameAs added.1) = [added] := by
  induction files with
  | nil => cases mem
  | cons first files ih =>
    obtain ⟨others, apart⟩ := List.pairwise_cons.mp apart
    rcases List.mem_cons.mp mem with rfl | later
    · have none : files.filter (·.1.sameAs added.1) = [] := by
        rw [List.filter_eq_nil_iff]
        intro other inFiles
        rw [Path.sameAs_comm, others other inFiles]
        exact Bool.false_ne_true
      have same : added.1.sameAs added.1 = true := Path.sameAs_iff.mpr rfl
      rw [List.filter_cons, if_pos same, none]
    · rw [List.filter_cons, others added later, if_neg Bool.false_ne_true, ih apart later]

end Index

end Hyperlisting
