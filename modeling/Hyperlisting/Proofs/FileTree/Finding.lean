import Hyperlisting.Proofs.FileTree.Plain
import Hyperlisting.Proofs.FileTree.Search

/-! What a search finds in a tree of files and directories alone: every file of its extension below
the place where it starts, as far as lookups accept the file's path. So two trees with the same files
of these extensions have the same sources. -/

namespace Hyperlisting.FileTree

open Hyperlisting.Path (IsFileName)

variable {tree after : FileTree} {place location : Location} {file : Path} {name extension : OsText}

theorem get?_of_mem_children {entry : Entry} (mem : (name, entry) ∈ tree.children place) :
    tree.get? (place ++ [name]) = some entry := by
  obtain ⟨⟨names, _⟩, below, isChild⟩ := List.mem_filterMap.mp mem
  obtain ⟨⟨found, _⟩, stands, isBelow⟩ := List.mem_filterMap.mp below
  dsimp only at isChild isBelow
  split at isChild
  · cases isChild
    split at isBelow
    · rename_i beneath
      obtain ⟨rest, rfl⟩ := List.isPrefixOf_iff_prefix.mp (Bool.and_eq_true .. ▸ beneath).1
      obtain ⟨same, rfl⟩ := Prod.mk.inj (Option.some.inj isBelow)
      rw [List.drop_left] at same
      exact same ▸ get?_of_mem_toList (by simp [same]) stands
    · cases isBelow
  · cases isChild

theorem Sound.above_concat {names : Location} (sound : tree.Sound)
    (found : tree.get? (place ++ (names ++ [name])) ≠ none) : tree.get? place = some .directory := by
  cases names with
  | nil => exact sound.above found
  | cons first names => exact sound.above_append found

theorem Reachable.of_append {names : Location} (reachable : Reachable (place ++ names)) :
    Reachable place where
  accepted := by
    refine refuse_of_isPrefix reachable.accepted ?_ (by simp [pathOf])
    exact List.cons_prefix_cons.mpr ⟨rfl, Path.intercalate_isPrefix (List.prefix_append ..)⟩
  short name mem := reachable.short name (List.mem_append_left _ mem)

theorem entryPath_pathOf (fits : ∀ part ∈ place ++ [name], IsFileName part) :
    entryPath (pathOf place) name = pathOf (place ++ [name]) := by
  have notCurrent : ¬ ((pathOf place).bytes == [Path.dot]) = true := by
    rw [beq_iff_eq, pathOf, List.cons.injEq]
    exact fun same => absurd same.1 (by decide)
  rw [entryPath, if_neg notCurrent, join_pathOf fits]

theorem fits_shown (fits : ∀ name ∈ place, IsFileName name) :
    ∀ name ∈ place.map OsText.shown, IsFileName name :=
  List.forall_mem_map.mpr fun name mem => Path.isFileName_shown (fits name mem)

/-- A search starts from what is shown of the path of a place. -/
theorem searchStart?_pathOf (fits : ∀ name ∈ place, IsFileName name) :
    searchStart? (pathOf place) = some (pathOf (place.map OsText.shown)) := by
  have shown : Path.mk (pathOf place).text = pathOf (place.map OsText.shown) := by
    have first : OsText.shown ([] ++ Path.separator :: [Path.separator].intercalate place) = _ :=
      OsText.shown_append_cons (by decide)
    rw [OsText.shown_intercalate (by decide)] at first
    exact congrArg Path.ofBytes first
  have fits := fits_shown fits
  rw [searchStart?, shown]
  clear shown
  generalize place.map OsText.shown = place at fits ⊢
  dsimp only
  rw [if_neg (by simp [pathOf]), if_pos (isAbsolute_pathOf place)]
  rcases List.eq_nil_or_concat' place with rfl | ⟨front, last, whole⟩
  · rfl
  · have parts : (pathOf place).parts = ⟨some .root, place⟩ :=
      Path.parts_ofParts (proper_location fits) (by simp [whole])
    rw [parts]
    clear parts whole
    have along : place.foldl (fun way piece => way.join ⟨piece⟩) (pathOf []) = pathOf place := by
      induction place using List.reverseRecOn with
      | nil => rfl
      | append_singleton place name ih =>
        rw [List.foldl_append, ih fun name mem => fits name (List.mem_append_left _ mem)]
        exact join_pathOf fits
    exact congrArg some along

section Plain

variable (plain : tree.Plain)

include plain

theorem Plain.mem_sourceAt_iff (fits : ∀ name ∈ location, IsFileName name) :
    .source file ∈ tree.sourceAt (pathOf location) ↔
      file = pathOf location ∧ Reachable location ∧
        ∃ content, tree.get? location = some (.file content) := by
  rw [sourceAt]
  have leads {result : Location} : tree.resolve (pathOf location) = .ok result ↔ _ :=
    plain.resolve_pathOf fits
  cases resolved : tree.resolve (pathOf location) with
  | error cause =>
    refine iff_of_false List.not_mem_nil ?_
    rintro ⟨-, reachable, content, isFile⟩
    cases resolved.symm.trans (leads.mpr ⟨rfl, reachable, by simp [isFile]⟩)
  | ok result =>
    obtain ⟨rfl, reachable, found⟩ := leads.mp resolved
    dsimp only
    split
    · rename_i content isFile
      simp [reachable, isFile]
    · rename_i notFile
      refine iff_of_false List.not_mem_nil ?_
      rintro ⟨-, -, content, isFile⟩
      exact notFile content isFile

/-- A search finds the files of an extension below a place, down to a depth. -/
theorem Plain.mem_search_iff {depth : Nat} (fits : ∀ name ∈ place, IsFileName name) :
    .source file ∈ tree.search extension depth (pathOf place) ↔
      ∃ names name, names.length < depth ∧ hasExtension extension name = true ∧
        file = pathOf (place ++ (names ++ [name])) ∧ Reachable (place ++ (names ++ [name])) ∧
        ∃ content, tree.get? (place ++ (names ++ [name])) = some (.file content) := by
  induction depth generalizing place with
  | zero => simp [search]
  | succ depth ih =>
    have childFits {name : OsText} {entry : Entry}
        (stands : tree.get? (place ++ [name]) = some entry) :
        ∀ part ∈ place ++ [name], IsFileName part := plain.named (by simp [stands])
    constructor
    · intro mem
      rw [search] at mem
      split at mem
      · cases List.mem_singleton.mp mem
      · rename_i result resolved
        obtain ⟨rfl, -, -⟩ := (plain.resolve_pathOf fits).mp resolved
        obtain ⟨⟨name, entry⟩, isChild, found⟩ := List.mem_flatMap.mp mem
        have stands := get?_of_mem_children isChild
        have fits := childFits stands
        dsimp only at found
        rw [entryPath_pathOf fits] at found
        rcases List.mem_append.mp found with here | deeper
        · split at here
          · rename_i extended
            obtain ⟨same, reachable, isFile⟩ := (plain.mem_sourceAt_iff fits).mp here
            exact ⟨[], name, Nat.succ_pos _, extended, same, reachable, isFile⟩
          · cases here
        · split at deeper
          · obtain ⟨names, last, bound, rest⟩ := (ih fits).mp deeper
            rw [List.append_assoc, List.singleton_append, ← List.cons_append] at rest
            exact ⟨name :: names, last, Nat.succ_lt_succ bound, rest⟩
          · cases deeper
    · rintro ⟨names, name, bound, extended, same, reachable, content, isFile⟩
      have directory := plain.sound.above_concat (Option.ne_none_iff_exists'.mpr ⟨_, isFile⟩)
      have resolved := (plain.resolve_pathOf fits).mpr
        ⟨rfl, reachable.of_append, by simp [directory]⟩
      rw [search, resolved]
      refine List.mem_flatMap.mpr ?_
      cases names with
      | nil =>
        refine ⟨(name, .file content), mem_children_of_get? isFile, List.mem_append_left _ ?_⟩
        have fits := childFits isFile
        rw [entryPath_pathOf fits, if_pos extended]
        exact (plain.mem_sourceAt_iff fits).mpr ⟨same, reachable, content, isFile⟩
      | cons first names =>
        have whole : place ++ (first :: names ++ [name]) = place ++ [first] ++ (names ++ [name]) := by
          simp
        rw [whole] at same reachable isFile
        have stands := plain.sound.above_concat (Option.ne_none_iff_exists'.mpr ⟨_, isFile⟩)
        have fits := childFits stands
        refine ⟨(first, .directory), mem_children_of_get? stands, List.mem_append_right _ ?_⟩
        rw [entryPath_pathOf fits]
        exact (ih fits).mpr
          ⟨names, name, Nat.lt_of_succ_lt_succ bound, extended, same, reachable, content, isFile⟩

/-- What is found at or below a place: the file that is there, whatever its name, or the files of
the source extensions below the place that is shown. -/
theorem Plain.mem_findSources_iff (fits : ∀ name ∈ location, IsFileName name) :
    .source file ∈ tree.findSources (pathOf location) ↔
      .source file ∈ tree.sourceAt (pathOf location) ∨
        tree.isFile (pathOf location) = false ∧ ∃ extension ∈ sourceExtensions,
          .source file ∈ tree.search extension pathLimit (pathOf (location.map OsText.shown)) := by
  have shownFits := fits_shown fits
  rw [findSources, searchStart?_pathOf fits]
  dsimp only
  split
  · rename_i isFile
    simp [isFile]
  · rename_i notFile
    have noSource : .source file ∉ tree.sourceAt (pathOf location) := by
      rw [plain.mem_sourceAt_iff fits]
      exact fun here => notFile ((plain.isFile_pathOf fits).mpr here.2)
    rw [or_iff_right noSource, and_iff_right (Bool.eq_false_iff.mpr notFile)]
    split
    · rw [List.mem_flatMap]
    · rename_i notDirectory
      refine iff_of_false List.not_mem_nil ?_
      rintro ⟨extension, -, found⟩
      obtain ⟨names, name, -, -, -, reachable, content, below⟩ :=
        (plain.mem_search_iff shownFits).mp found
      have directory := plain.sound.above_concat (Option.ne_none_iff_exists'.mpr ⟨_, below⟩)
      exact notDirectory ((plain.isDirectory_pathOf shownFits).mpr ⟨reachable.of_append, directory⟩)

end Plain

/-- A place whose name has one of the source extensions. -/
def IsSourcePlace (location : Location) : Prop :=
  ∃ directory name, location = directory ++ [name] ∧
    ∃ extension ∈ sourceExtensions, Path.extension? ⟨name⟩ = some extension

theorem isSourcePlace_of_hasExtension {names : Location} (isSource : extension ∈ sourceExtensions)
    (extended : hasExtension extension name = true) : IsSourcePlace (place ++ (names ++ [name])) :=
  ⟨place ++ names, name, (List.append_assoc ..).symm, extension, isSource,
    beq_iff_eq.mp (Bool.and_eq_true .. ▸ extended).2⟩

section Sources

variable (fits : ∀ name ∈ location, IsFileName name)
  (named : tree.isFile (pathOf location) = true → IsSourcePlace location)

include fits named

/-- At or below a place that is a directory or has a source's name, all that is found are files with
such names. -/
theorem Plain.isSourcePlace_of_mem_findSources (plain : tree.Plain)
    (found : .source file ∈ tree.findSources (pathOf location)) :
    ∃ place, file = pathOf place ∧ IsSourcePlace place ∧
      ∃ content, tree.get? place = some (.file content) := by
  rcases (plain.mem_findSources_iff fits).mp found with here | ⟨notFile, extension, isSource, below⟩
  · obtain ⟨rfl, stands⟩ := (plain.mem_sourceAt_iff fits).mp here
    exact ⟨location, rfl, named ((plain.isFile_pathOf fits).mpr stands), stands.2⟩
  · obtain ⟨names, name, -, extended, rfl, -, isFile⟩ :=
      (plain.mem_search_iff (fits_shown fits)).mp below
    exact ⟨_, rfl, isSourcePlace_of_hasExtension isSource extended, isFile⟩

/-- A source is found in every tree in which all sources are files too. -/
theorem Plain.mem_findSources_of_subset (plain : tree.Plain) (plainAfter : after.Plain)
    (sameKind : after.isFile (pathOf location) = tree.isFile (pathOf location))
    (subset : ∀ place, IsSourcePlace place → ∀ content, tree.get? place = some (.file content) →
      after.get? place = some (.file content))
    (found : .source file ∈ tree.findSources (pathOf location)) :
    .source file ∈ after.findSources (pathOf location) := by
  rw [plainAfter.mem_findSources_iff fits]
  rcases (plain.mem_findSources_iff fits).mp found with here | ⟨notFile, extension, isSource, below⟩
  · obtain ⟨rfl, stands⟩ := (plain.mem_sourceAt_iff fits).mp here
    have isSource := named ((plain.isFile_pathOf fits).mpr stands)
    obtain ⟨reachable, content, isFile⟩ := stands
    exact .inl ((plainAfter.mem_sourceAt_iff fits).mpr
      ⟨rfl, reachable, content, subset location isSource content isFile⟩)
  · obtain ⟨names, name, bound, extended, rfl, reachable, content, isFile⟩ :=
      (plain.mem_search_iff (fits_shown fits)).mp below
    have isPlace : IsSourcePlace (location.map OsText.shown ++ (names ++ [name])) :=
      isSourcePlace_of_hasExtension isSource extended
    refine .inr ⟨sameKind.trans notFile, extension, isSource,
      (plainAfter.mem_search_iff (fits_shown fits)).mpr ?_⟩
    exact ⟨names, name, bound, extended, rfl, reachable, content, subset _ isPlace content isFile⟩

end Sources

end Hyperlisting.FileTree
