import Hyperlisting.FileTree.Search
import Hyperlisting.Proofs.FileTree.Walk
import Hyperlisting.Proofs.Lists

/-! What a search finds. Below an absolute path all files found are the canonical paths of files,
whatever links the search went through, and below any path they are paths of places. -/

namespace Hyperlisting.FileTree

variable {tree : FileTree} {path file : Path} {finding : Finding}

/-- The canonical path of a file. -/
def IsSource (tree : FileTree) (file : Path) : Prop :=
  ∃ location content, file = pathOf location ∧ tree.Standing location ∧
    tree.get? location = some (.file content)

/-- The path of a place, with the names that lead there and nothing else. -/
def IsPlacePath (file : Path) : Prop :=
  ∃ location, file = pathOf location ∧ ∀ name ∈ location, Path.IsFileName name

theorem IsSource.isPlacePath (isSource : tree.IsSource file) : IsPlacePath file := by
  obtain ⟨location, _, same, standing, _⟩ := isSource
  exact ⟨location, same, standing.names⟩

theorem isAbsolute_join (absolute : path.isAbsolute = true) (further : Path) :
    (path.join further).isAbsolute = true := by
  cases start : further.isAbsolute with
  | true => rwa [Path.join, if_pos start]
  | false => rwa [Path.isAbsolute_join start]

theorem mem_sourceAt_iff : finding ∈ tree.sourceAt path ↔
    ∃ location content, tree.resolve path = .ok location ∧
      tree.get? location = some (.file content) ∧ finding = .source (pathOf location) := by
  unfold sourceAt
  cases tree.resolve path with
  | error cause => simp
  | ok location =>
    dsimp only
    split
    · rename_i content isFile
      simp [isFile]
    · rename_i other
      simp only [List.not_mem_nil, false_iff]
      rintro ⟨found, content, same, isFile, -⟩
      obtain rfl := Except.ok.inj same
      exact other content isFile

theorem isAbsolute_entryPath (absolute : path.isAbsolute = true) (name : OsText) :
    (entryPath path name).isAbsolute = true := by
  unfold entryPath
  split
  · rename_i current
    rw [Path.isAbsolute, beq_iff_eq.mp current] at absolute
    cases absolute
  · exact isAbsolute_join absolute _

/-- What a search finds stands at the end of some way, absolute if the search starts so. -/
theorem exists_way_of_mem_search {extension : OsText} {depth : Nat}
    (mem : .source file ∈ tree.search extension depth path) :
    ∃ way : Path, (path.isAbsolute = true → way.isAbsolute = true) ∧
      .source file ∈ tree.sourceAt way := by
  induction depth generalizing path with
  | zero => cases mem
  | succ depth ih =>
    unfold search at mem
    split at mem
    · cases List.mem_singleton.mp mem
    · obtain ⟨⟨name, entry⟩, _, found⟩ := List.mem_flatMap.mp mem
      have onward (absolute : path.isAbsolute = true) := isAbsolute_entryPath absolute name
      rcases List.mem_append.mp found with here | deeper
      · split at here
        · exact ⟨_, onward, here⟩
        · cases here
      · split at deeper
        · obtain ⟨way, along, found⟩ := ih deeper
          exact ⟨way, along ∘ onward, found⟩
        · cases deeper

theorem isAbsolute_mk_text (absolute : path.isAbsolute = true) :
    (Path.mk path.text).isAbsolute = true := by
  obtain ⟨bytes⟩ := path
  cases bytes with
  | nil => cases absolute
  | cons byte bytes =>
    obtain rfl : byte = Path.separator := Option.some.inj (beq_iff_eq.mp absolute)
    rfl

theorem isAbsolute_searchStart? {start : Path} (absolute : path.isAbsolute = true)
    (starts : searchStart? path = some start) : start.isAbsolute = true := by
  have shown := isAbsolute_mk_text absolute
  have nonempty : (Path.mk path.text).bytes.isEmpty = false :=
    Bool.eq_false_iff.mpr fun empty => by
      rw [Path.isAbsolute, List.isEmpty_iff.mp empty] at shown
      cases shown
  rw [searchStart?] at starts
  dsimp only at starts
  rw [if_neg (Bool.eq_false_iff.mp nonempty), if_pos shown] at starts
  obtain rfl := Option.some.inj starts
  have kept (pieces : List OsText) (way : Path) (absolute : way.isAbsolute = true) :
      (pieces.foldl (fun way piece => way.join ⟨piece⟩) way).isAbsolute = true := by
    induction pieces generalizing way with
    | nil => exact absolute
    | cons piece pieces ih => exact ih _ (isAbsolute_join absolute _)
  exact kept _ _ rfl

theorem exists_way_of_mem_findSources (mem : .source file ∈ tree.findSources path) :
    ∃ way : Path, (path.isAbsolute = true → way.isAbsolute = true) ∧
      .source file ∈ tree.sourceAt way := by
  unfold findSources at mem
  split at mem
  · exact ⟨path, id, mem⟩
  · split at mem
    · cases mem
    · rename_i start starts
      split at mem
      · obtain ⟨extension, _, found⟩ := List.mem_flatMap.mp mem
        obtain ⟨way, along, found⟩ := exists_way_of_mem_search found
        exact ⟨way, fun absolute => along (isAbsolute_searchStart? absolute starts), found⟩
      · cases mem

theorem isSource_of_mem_findSources (absolute : path.isAbsolute = true)
    (mem : .source file ∈ tree.findSources path) : tree.IsSource file := by
  obtain ⟨way, along, found⟩ := exists_way_of_mem_findSources mem
  obtain ⟨location, content, resolved, isFile, same⟩ := mem_sourceAt_iff.mp found
  exact ⟨location, content, Finding.source.inj same,
    standing_of_resolve (along absolute) resolved, isFile⟩

/-- Where the names of the current directory are names of files, so are those of all files found. -/
theorem exists_place_of_mem_findSources (named : ∀ name ∈ tree.current, Path.IsFileName name)
    (mem : .source file ∈ tree.findSources path) :
    ∃ location content, file = pathOf location ∧ (∀ name ∈ location, Path.IsFileName name) ∧
      tree.get? location = some (.file content) := by
  obtain ⟨way, -, found⟩ := exists_way_of_mem_findSources mem
  obtain ⟨location, content, resolved, isFile, same⟩ := mem_sourceAt_iff.mp found
  exact ⟨location, content, Finding.source.inj same, names_of_resolve (.inr named) resolved, isFile⟩

theorem isPlacePath_of_mem_findSources (named : ∀ name ∈ tree.current, Path.IsFileName name)
    (mem : .source file ∈ tree.findSources path) : IsPlacePath file := by
  obtain ⟨location, _, same, names, _⟩ := exists_place_of_mem_findSources named mem
  exact ⟨location, same, names⟩

theorem mem_filterMap_source?_iff {findings : List Finding} :
    file ∈ findings.filterMap Finding.source? ↔ .source file ∈ findings := by
  rw [List.mem_filterMap]
  constructor
  · rintro ⟨finding, found, isSource⟩
    cases finding with
    | source other => exact Option.some.inj isSource ▸ found
    | unreadable directory cause => cases isSource
  · exact fun found => ⟨_, found, rfl⟩

theorem mem_sourcesOf_iff {findings : List Finding} :
    file ∈ sourcesOf findings ↔ .source file ∈ findings := by
  rw [sourcesOf, Lists.mem_eraseReps, List.mem_mergeSort, mem_filterMap_source?_iff]

theorem pathOf_injective {location other : Location}
    (names : ∀ name ∈ location, Path.IsFileName name)
    (otherNames : ∀ name ∈ other, Path.IsFileName name)
    (same : (pathOf location).components = (pathOf other).components) : location = other := by
  rw [components_pathOf names, components_pathOf otherNames] at same
  exact eq_of_map_name (List.cons.inj same).2

theorem IsPlacePath.eq_of_components {other : Path} (isPlace : IsPlacePath file)
    (otherIsPlace : IsPlacePath other) (same : file.components = other.components) :
    file = other := by
  obtain ⟨location, rfl, names⟩ := isPlace
  obtain ⟨otherLocation, rfl, otherNames⟩ := otherIsPlace
  rw [pathOf_injective names otherNames same]

theorem IsPlacePath.eq_of_le {other : Path} (isPlace : IsPlacePath file)
    (otherIsPlace : IsPlacePath other) (before : (compare file other).isLE = true)
    (after : (compare other file).isLE = true) : file = other :=
  isPlace.eq_of_components otherIsPlace
    (Path.compare_eq_iff.mp (Std.OrientedCmp.isLE_antisymm before after))

/-- Sources come in order, each once on however many ways it was found. -/
theorem ascending_sourcesOf {findings : List Finding}
    (places : ∀ file, .source file ∈ findings → IsPlacePath file) :
    (sourcesOf findings).Pairwise fun path other => compare path other = .lt := by
  have isPlace : ∀ file ∈ (findings.filterMap Finding.source?).mergeSort
      fun path other => (compare path other).isLE, IsPlacePath file := by
    intro file mem
    exact places file (mem_sourcesOf_iff.mp (by rwa [sourcesOf, Lists.mem_eraseReps]))
  have ordered : (sourcesOf findings).Pairwise fun path other =>
      (compare path other).isLE = true ∧ path ≠ other := by
    refine Lists.pairwise_eraseReps ?_ (Lists.pairwise_mergeSort_compare _)
    exact fun file mem other otherMem => (isPlace file mem).eq_of_le (isPlace other otherMem)
  refine ordered.imp_of_mem ?_
  rintro file other mem otherMem ⟨before, different⟩
  cases comparison : compare file other with
  | lt => rfl
  | eq =>
    have same := (places file (mem_sourcesOf_iff.mp mem)).eq_of_components
      (places other (mem_sourcesOf_iff.mp otherMem)) (Path.compare_eq_iff.mp comparison)
    exact absurd same different
  | gt => simp [comparison] at before

theorem nodup_sourcesOf {findings : List Finding}
    (places : ∀ file, .source file ∈ findings → IsPlacePath file) :
    (sourcesOf findings).Nodup := by
  refine (ascending_sourcesOf places).imp ?_
  rintro file _ before rfl
  exact absurd before (by simp)

/-- The same findings in another order, or on other ways, come to the same list of sources. -/
theorem sourcesOf_eq {findings others : List Finding}
    (places : ∀ file, .source file ∈ findings → IsPlacePath file)
    (same : ∀ file, .source file ∈ findings ↔ .source file ∈ others) :
    sourcesOf findings = sourcesOf others := by
  have otherPlaces : ∀ file, .source file ∈ others → IsPlacePath file :=
    fun file mem => places file ((same file).mpr mem)
  have sameMembers (file : Path) : file ∈ sourcesOf findings ↔ file ∈ sourcesOf others := by
    rw [mem_sourcesOf_iff, mem_sourcesOf_iff, same]
  have perm := (List.perm_ext_iff_of_nodup (nodup_sourcesOf places)
    (nodup_sourcesOf otherPlaces)).mpr sameMembers
  refine List.Perm.eq_of_pairwise ?_ (ascending_sourcesOf places) (ascending_sourcesOf otherPlaces)
    perm
  intro file other _ _ before after
  exact absurd after (Std.OrientedCmp.not_lt_of_lt before)

end Hyperlisting.FileTree
