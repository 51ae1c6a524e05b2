import Mathlib.Data.List.Nodup
import Hyperlisting.Proofs.Index

/-! The table that an index keeps. Its views show all of it: what they answer are the entries of the
table, filtered, and each number stands in one list of each view. Adding a file appends to the table
what the text declares, so numbers and entries stay what they were. -/

namespace Hyperlisting.Index

variable {index : Index} {file : Path} {source : Text} {files : List (Path × Text)}

/-- The entries of the table, each with its number, ascending. -/
def entries (index : Index) : List (Nat × Declaration) :=
  (List.range index.declarations.size).filterMap index.numbered?

theorem mem_places {declarations : Array Declaration} {holds : Declaration → Bool} {id : Nat} :
    id ∈ places declarations holds ↔
      ∃ declaration, declarations[id]? = some declaration ∧ holds declaration = true := by
  rw [places, List.mem_filter, List.mem_range, Option.any_eq_true]
  refine and_iff_right_of_imp ?_
  rintro ⟨declaration, found, -⟩
  exact (Array.getElem?_eq_some_iff.mp found).1

theorem nodup_places (declarations : Array Declaration) (holds : Declaration → Bool) :
    (places declarations holds).Nodup :=
  List.nodup_range.filter _

/-- The entries at the places of a property are those that have it. -/
theorem filterMap_numbered?_places (index : Index) (holds : Declaration → Bool) :
    (places index.declarations holds).filterMap index.numbered? =
      index.entries.filter (holds ·.2) := by
  rw [places, entries, List.filterMap_filter, List.filter_filterMap]
  apply List.filterMap_congr
  intro id _
  unfold numbered?
  cases index.declarations[id]? with
  | none => rfl
  | some declaration => cases held : holds declaration <;> simp [Option.filter, held]

/-- A view whose lists are the places of their keys has each number of the table in one list. -/
theorem perm_range_of_places {key : Type} [Ord key] [Std.TransOrd key]
    {declarations : Array Declaration} {view : Std.TreeMap key (Array Nat)}
    {holds : key → Declaration → Bool} (keyOf : Declaration → key)
    (decides : ∀ k declaration,
      holds k declaration = true ↔ compare (keyOf declaration) k = .eq)
    (shown : ∀ k, (view.getD k #[]).toList = places declarations (holds k)) :
    (view.toList.flatMap (·.2.toList)).Perm (List.range declarations.size) := by
  have listed {k : key} {ids : Array Nat} (mem : (k, ids) ∈ view.toList) :
      ids.toList = places declarations (holds k) := by
    obtain ⟨-, found⟩ := Std.TreeMap.mem_toList_iff_getKey?_eq_some_and_getElem?_eq_some.mp mem
    rw [← shown, Std.TreeMap.getD_eq_getD_getElem?, found]
    rfl
  have apart : view.toList.Pairwise
      (Function.onFun List.Disjoint fun entry => entry.2.toList) := by
    apply List.Pairwise.imp_of_mem ?_ Std.TreeMap.distinct_keys_toList
    intro entry other mem otherMem different id
      (inEntry : id ∈ entry.2.toList) (inOther : id ∈ other.2.toList)
    rw [listed mem, mem_places] at inEntry
    rw [listed otherMem, mem_places] at inOther
    obtain ⟨declaration, found, held⟩ := inEntry
    obtain ⟨_, same, otherHeld⟩ := inOther
    obtain rfl := Option.some.inj (found.symm.trans same)
    have toEntry := Std.OrientedCmp.eq_symm ((decides ..).mp held)
    exact different (Std.TransCmp.eq_trans toEntry ((decides ..).mp otherHeld))
  have once : (view.toList.flatMap (·.2.toList)).Nodup := by
    refine List.nodup_flatMap.mpr ⟨?_, apart⟩
    intro entry mem
    rw [listed mem]
    exact nodup_places _ _
  rw [List.perm_ext_iff_of_nodup once List.nodup_range]
  intro id
  rw [List.mem_flatMap, List.mem_range]
  constructor
  · rintro ⟨entry, mem, inEntry⟩
    rw [listed mem, mem_places] at inEntry
    obtain ⟨declaration, found, -⟩ := inEntry
    exact (Array.getElem?_eq_some_iff.mp found).1
  · intro bound
    let k := keyOf declarations[id]
    have inList : id ∈ (view.getD k #[]).toList := by
      rw [shown, mem_places]
      exact ⟨_, Array.getElem?_eq_getElem bound, (decides ..).mpr Std.ReflCmp.compare_self⟩
    rw [Std.TreeMap.getD_eq_getD_getElem?] at inList
    cases found : view[k]? with
    | none => simp [found] at inList
    | some ids =>
      obtain ⟨other, -, mem⟩ :=
        Std.TreeMap.getElem?_eq_some_iff_exists_compare_eq_eq_and_mem_toList.mp found
      exact ⟨_, mem, by simpa [found] using inList⟩

/-- The views show the table: what they answer are its entries with the name or of the file, and
each number stands in one list by name and in one by file. -/
structure Faithful (index : Index) : Prop where
  lookup : ∀ name, index.lookup name =
    (index.entries.filter (·.2.name = name)).map Prod.snd
  declarationsIn : ∀ file, index.declarationsIn file = index.entries.filter (·.2.file.sameAs file)
  byName : (index.byName.toList.flatMap (·.2.toList)).Perm (List.range index.declarations.size)
  byFile : (index.byFile.toList.flatMap (·.2.toList)).Perm (List.range index.declarations.size)

theorem Consistent.faithful (consistent : index.Consistent) : index.Faithful where
  lookup name := by
    rw [← filterMap_numbered?_places index fun declaration => declaration.name = name,
      ← consistent.byName, List.map_filterMap, Index.lookup]
    simp [numbered?, Function.comp_def]
  declarationsIn file := by
    rw [← filterMap_numbered?_places index fun declaration => declaration.file.sameAs file,
      ← consistent.byFile, Index.declarationsIn]
  byName := by
    refine perm_range_of_places Declaration.name ?_ consistent.byName
    intro name declaration
    rw [decide_eq_true_iff, Std.LawfulEqOrd.compare_eq_iff_eq]
  byFile := by
    refine perm_range_of_places Declaration.file ?_ consistent.byFile
    intro file declaration
    rw [Path.sameAs_iff, Path.compare_eq_iff]

/-- What a call adds to the table from a number on: declarations of the file, in the order of the
text, each at its name and within a function or class that the call added before it, if any. -/
structure Adds (first : Nat) (file : Path) (source : Text) (added : List Declaration) : Prop where
  file_eq : ∀ declaration ∈ added, declaration.file = file
  cuts : ∀ declaration ∈ added, declaration.Cuts source
  ordered : added.Pairwise (·.start ≤ ·.start)
  nested : ∀ i declaration outer, added[i]? = some declaration → declaration.parent = some outer →
    first ≤ outer ∧ outer < first + i ∧
      ∃ around, added[outer - first]? = some around ∧
        (around.kind = .function ∨ around.kind = .classType)

theorem adds_found (index : Index) (file : Path) (source : Text) :
    Adds index.declarations.size file source (index.found file source) where
  file_eq _ mem := (Declaration.mem_ofSource mem).1
  cuts _ mem := Declaration.cuts_of_mem_ofSource mem
  ordered := Declaration.pairwise_start_collect (Token.pairwise_tokenize source)
  nested i declaration outer found parent := by
    rcases Declaration.parent_of_getElem?_collect i found parent with
      none | ⟨least, less, around, foundAround, encloses⟩
    · cases none
    · refine ⟨least, less, around, foundAround, ?_⟩
      cases kind : around.kind with
      | function => exact .inl rfl
      | classType => exact .inr rfl
      | assignment => exact absurd kind encloses

theorem declarations_addFile (index : Index) (file : Path) (source : Text) :
    (index.addFile file source).declarations.toList =
      index.declarations.toList ++ index.found file source :=
  declarations_foldl_insert index (index.found file source)

theorem declarations_isPrefix_foldl_addFile (index : Index) (files : List (Path × Text)) :
    index.declarations.toList <+:
      (files.foldl (fun index (file, source) => index.addFile file source)
        index).declarations.toList := by
  induction files generalizing index with
  | nil => exact List.prefix_refl _
  | cons added files ih =>
    obtain ⟨file, source⟩ := added
    have appended := declarations_addFile index file source
    exact (appended ▸ List.prefix_append ..).trans (ih (index.addFile file source))

/-- However files are added, and a file any number of times, the views show the table, and each call
leaves what was in the table and appends what is found in its text. -/
theorem faithful_ofFiles (files : List (Path × Text)) :
    (ofFiles files).Faithful ∧
      ∀ earlier file source later, files = earlier ++ (file, source) :: later →
        let added := (ofFiles earlier).found file source
        Adds (ofFiles earlier).declarations.size file source added ∧
          ((ofFiles earlier).addFile file source).declarations.toList =
            (ofFiles earlier).declarations.toList ++ added ∧
          (ofFiles earlier).declarations.toList ++ added <+:
            (ofFiles files).declarations.toList := by
  refine ⟨(consistent_ofFiles files).faithful, ?_⟩
  rintro earlier file source later rfl
  have split : ofFiles (earlier ++ (file, source) :: later) =
      later.foldl (fun index (file, source) => index.addFile file source)
        ((ofFiles earlier).addFile file source) := by
    rw [ofFiles, List.foldl_append, List.foldl_cons]
    rfl
  refine ⟨adds_found .., declarations_addFile .., ?_⟩
  rw [split, ← declarations_addFile]
  exact declarations_isPrefix_foldl_addFile ..

end Hyperlisting.Index
