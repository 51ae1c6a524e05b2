import Hyperlisting.Proofs.FileTree.Search
import Hyperlisting.Site.Generation

/-! Building an index. It depends on the set of files that are found and on nothing else: not on the
order in which they are found, nor on how often, nor on the ways that lead to them. -/

namespace Hyperlisting

open FileTree
open Hyperlisting.Path (IsFileName)

variable {tree after : FileTree} {file path : Path} {paths others : List Path}

theorem Index.files_foldl_insert (index : Index) (found : List Declaration) :
    (found.foldl insert index).files = index.files := by
  induction found generalizing index with
  | nil => rfl
  | cons declaration found ih => exact ih (index.insert declaration)

theorem Index.files_addFile (index : Index) (file : Path) (source : Text) :
    (index.addFile file source).files = index.files.push file := by
  rw [addFile]
  exact congrArg (·.push file) (index.files_foldl_insert _)

namespace Indexing

theorem files_add (tree : FileTree) (indexing : Indexing) (file : Path) :
    (indexing.add tree file).index.files.toList = indexing.index.files.toList ++
      [file].filter fun file => (tree.readText file).toBool := by
  unfold add
  cases read : tree.readText file with
  | error cause => simp [read, Except.toBool]
  | ok text => simp [read, Except.toBool, Index.files_addFile]

/-- The index holds the files that can be read, in the order in which they were found. -/
theorem files_foldl_add (tree : FileTree) (indexing : Indexing) (files : List Path) :
    (files.foldl (add tree) indexing).index.files.toList = indexing.index.files.toList ++
      files.filter fun file => (tree.readText file).toBool := by
  induction files generalizing indexing with
  | nil => simp
  | cons first files ih =>
    rw [List.foldl_cons, ih, files_add, List.append_assoc, ← List.filter_append]
    rfl

theorem index_add (tree : FileTree) (indexing : Indexing) (file : Path) :
    (indexing.add tree file).index =
      match tree.readText file with
      | .ok source => indexing.index.addFile file source
      | .error _ => indexing.index := by
  rw [add]
  cases tree.readText file <;> rfl

/-- Files that are read alike in two trees come to the same index. -/
theorem index_foldl_add {files : List Path} {indexing other : Indexing}
    (same : indexing.index = other.index)
    (read : ∀ file ∈ files, ∀ text,
      after.readText file = .ok text ↔ tree.readText file = .ok text) :
    (files.foldl (add after) indexing).index = (files.foldl (add tree) other).index := by
  induction files generalizing indexing other with
  | nil => exact same
  | cons file files ih =>
    obtain ⟨readFile, readRest⟩ := List.forall_mem_cons.mp read
    refine ih ?_ readRest
    rw [index_add, index_add, same]
    cases was : tree.readText file with
    | ok text => rw [(readFile text).mpr was]
    | error cause =>
      cases now : after.readText file with
      | ok text => cases was.symm.trans ((readFile text).mp now)
      | error cause => rfl

/-- The index of what a search has found, which may come in any order. -/
def ofFindings (tree : FileTree) (findings : List Finding) : Indexing :=
  let unread := (findings.filterMap Finding.unreadable?).map fun (directory, cause) =>
    Log.Event.unreadableDirectory directory cause
  (sourcesOf findings).foldl (add tree) { events := unread.toArray }

theorem build_eq_ofFindings (tree : FileTree) (paths : List Path) :
    build tree paths = ofFindings tree (paths.flatMap tree.findSources) :=
  rfl

theorem files_ofFindings (tree : FileTree) (findings : List Finding) :
    (ofFindings tree findings).index.files.toList =
      (sourcesOf findings).filter fun file => (tree.readText file).toBool := by
  rw [ofFindings, files_foldl_add]
  rfl

theorem files_build (tree : FileTree) (paths : List Path) :
    (build tree paths).index.files.toList =
      (sourcesOf (paths.flatMap tree.findSources)).filter fun file =>
        (tree.readText file).toBool :=
  files_ofFindings tree _

theorem mem_build_iff : file ∈ (build tree paths).index.files.toList ↔
    .source file ∈ paths.flatMap tree.findSources ∧ ∃ text, tree.readText file = .ok text := by
  rw [files_build, List.mem_filter, mem_sourcesOf_iff]
  refine and_congr_right fun _ => ?_
  cases tree.readText file <;> simp [Except.toBool]

section Absolute

variable (absolute : ∀ path ∈ paths, path.isAbsolute = true)

include absolute

theorem isSource_of_mem_findings (mem : .source file ∈ paths.flatMap tree.findSources) :
    tree.IsSource file := by
  obtain ⟨path, inPaths, found⟩ := List.mem_flatMap.mp mem
  exact isSource_of_mem_findSources (absolute path inPaths) found

/-- The index of some absolute paths holds files that can be read, by their canonical paths. -/
theorem isSource_of_mem_build (mem : file ∈ (build tree paths).index.files.toList) :
    tree.IsSource file ∧ ∃ text, tree.readText file = .ok text := by
  obtain ⟨found, read⟩ := mem_build_iff.mp mem
  exact ⟨isSource_of_mem_findings absolute found, read⟩

theorem nodup_build : (build tree paths).index.files.toList.Nodup := by
  rw [files_build]
  have places (file : Path) (mem : .source file ∈ paths.flatMap tree.findSources) :
      IsPlacePath file := (isSource_of_mem_findings absolute mem).isPlacePath
  exact (nodup_sourcesOf places).filter _

end Absolute

section Named

variable (named : ∀ name ∈ tree.current, IsFileName name)

include named

theorem isPlacePath_of_mem_findings (mem : .source file ∈ paths.flatMap tree.findSources) :
    IsPlacePath file := by
  obtain ⟨path, -, found⟩ := List.mem_flatMap.mp mem
  exact isPlacePath_of_mem_findSources named found

/-- The same files, found in another order or on other ways, come to the same index. -/
theorem index_ofFindings_eq {findings : List Finding}
    (same : ∀ file, .source file ∈ findings ↔ .source file ∈ paths.flatMap tree.findSources) :
    (ofFindings tree findings).index = (build tree paths).index := by
  have places (file : Path) (mem : .source file ∈ findings) : IsPlacePath file :=
    isPlacePath_of_mem_findings named ((same file).mp mem)
  rw [build_eq_ofFindings, ofFindings, ofFindings, sourcesOf_eq places same]
  exact index_foldl_add rfl fun _ _ _ => Iff.rfl

theorem ascending_build : (build tree paths).index.files.toList.Pairwise fun file other =>
    compare file other = .lt := by
  rw [files_build]
  exact (ascending_sourcesOf fun _ mem => isPlacePath_of_mem_findings named mem).filter _

/-- A path that leads to a file found elsewhere finds this file alone. -/
theorem mem_findSources_of_canonical {directory : Path} {other : Path}
    (found : .source other ∈ tree.findSources directory) (leads : tree.canonical path = .ok other)
    (mem : .source file ∈ tree.findSources path) : file = other := by
  obtain ⟨location, content, rfl, names, isFile⟩ := exists_place_of_mem_findSources named found
  obtain ⟨place, resolved, same⟩ := exists_resolve_of_canonical leads
  have samePlace : place = location :=
    pathOf_injective (names_of_resolve (.inr named) resolved) names (by rw [same])
  subst samePlace
  have isFile : tree.isFile path = true :=
    isFile_iff.mpr ⟨content, find_eq_ok_iff.mpr ⟨place, resolved, isFile⟩⟩
  rw [findSources, if_pos isFile] at mem
  obtain ⟨_, _, resolvedAgain, -, found⟩ := mem_sourceAt_iff.mp mem
  obtain rfl := Except.ok.inj (resolved.symm.trans resolvedAgain)
  exact Finding.source.inj found

/-- Each of the other paths is one of the paths, or leads to a file that is found below a directory
among them. -/
def Covers (tree : FileTree) (paths others : List Path) : Prop :=
  ∀ path ∈ others, path ∈ paths ∨
    ∃ directory ∈ paths, tree.isDirectory directory = true ∧
      ∃ file, tree.canonical path = .ok file ∧ .source file ∈ tree.findSources directory

theorem Covers.mem_findings (covers : Covers tree paths others)
    (mem : .source file ∈ others.flatMap tree.findSources) :
    .source file ∈ paths.flatMap tree.findSources := by
  obtain ⟨path, inOthers, found⟩ := List.mem_flatMap.mp mem
  rcases covers path inOthers with inPaths | ⟨directory, inPaths, -, other, leads, below⟩
  · exact List.mem_flatMap.mpr ⟨path, inPaths, found⟩
  · obtain rfl := mem_findSources_of_canonical named below leads found
    exact List.mem_flatMap.mpr ⟨directory, inPaths, below⟩

end Named

/-- Lists of paths with the same elements, and with further paths that lead to files which are found
below listed directories anyway, come to the same index, in whatever order searching finds the
files; it holds each file that is found and can be read, in path order and once. -/
theorem index_eq_of_covers {findings otherFindings : List Finding}
    (named : ∀ name ∈ tree.current, IsFileName name)
    (covers : Covers tree paths others) (covered : Covers tree others paths)
    (order : findings.Perm (paths.flatMap tree.findSources))
    (otherOrder : otherFindings.Perm (others.flatMap tree.findSources)) :
    (ofFindings tree findings).index = (build tree paths).index ∧
      (ofFindings tree otherFindings).index = (build tree paths).index ∧
      (build tree others).index = (build tree paths).index ∧
      ((build tree paths).index.files.toList.Pairwise fun file other =>
        compare file other = .lt) ∧
      (build tree paths).index.files.toList.Nodup ∧
      ∀ file, file ∈ (build tree paths).index.files.toList ↔
        .source file ∈ paths.flatMap tree.findSources ∧ ∃ text, tree.readText file = .ok text := by
  have reach (file : Path) : .source file ∈ others.flatMap tree.findSources ↔
      .source file ∈ paths.flatMap tree.findSources :=
    ⟨covers.mem_findings named, covered.mem_findings named⟩
  have ascending : (build tree paths).index.files.toList.Pairwise fun file other =>
      compare file other = .lt := ascending_build named
  refine ⟨?_, ?_, ?_, ascending, ?_, fun file => mem_build_iff⟩
  · exact index_ofFindings_eq named fun file => order.mem_iff
  · exact index_ofFindings_eq named fun file => otherOrder.mem_iff.trans (reach file)
  · exact index_ofFindings_eq named reach
  · refine ascending.imp ?_
    rintro file _ before rfl
    exact absurd before (by simp)

/-- A directory with two modules, and a link to it. -/
def linkedTree : FileTree :=
  .ofEntries ["R".toList] [(["R".toList], Entry.directory),
    (["R".toList, "l".toList], Entry.link ⟨"p".toList⟩),
    (["R".toList, "p".toList], Entry.directory),
    (["R".toList, "p".toList, "a.py".toList], Entry.file ByteArray.empty),
    (["R".toList, "p".toList, "b.pyw".toList], Entry.file ByteArray.empty)]

def linkedPaths : List Path := [⟨"p".toList⟩, ⟨"/R/l".toList⟩]

/-- The same paths in another order, one of them twice, and a file on the way through the link. -/
def moreLinkedPaths : List Path :=
  [⟨"/R/l".toList⟩, ⟨"l/a.py".toList⟩, ⟨"p".toList⟩, ⟨"p".toList⟩]

theorem covers_linkedPaths : Covers linkedTree linkedPaths moreLinkedPaths ∧
    Covers linkedTree moreLinkedPaths linkedPaths := by
  have found : (linkedTree.findSources ⟨"p".toList⟩).filterMap Finding.source? =
      [⟨"/R/p/a.py".toList⟩, ⟨"/R/p/b.pyw".toList⟩] := by
    decide +kernel
  have leads : linkedTree.canonical ⟨"l/a.py".toList⟩ = .ok ⟨"/R/p/a.py".toList⟩ := rfl
  have below : .source ⟨"/R/p/a.py".toList⟩ ∈ linkedTree.findSources ⟨"p".toList⟩ := by
    rw [← mem_filterMap_source?_iff, found]
    exact List.mem_cons_self
  constructor
  · simp only [Covers, moreLinkedPaths, List.forall_mem_cons]
    refine ⟨.inl (by decide), .inr ?_, .inl (by decide), .inl (by decide), by simp⟩
    exact ⟨⟨"p".toList⟩, by decide, by decide +kernel, _, leads, below⟩
  · intro path mem
    left
    revert path
    decide

/-- Searching the other way round, through the link first, makes no difference. -/
theorem index_eq_of_covers_linkedPaths :
    (∀ name ∈ linkedTree.current, IsFileName name) ∧
      Covers linkedTree linkedPaths moreLinkedPaths ∧
      Covers linkedTree moreLinkedPaths linkedPaths ∧
      (ofFindings linkedTree (linkedPaths.flatMap linkedTree.findSources).reverse).index =
        (build linkedTree linkedPaths).index ∧
      (build linkedTree moreLinkedPaths).index = (build linkedTree linkedPaths).index ∧
      (build linkedTree linkedPaths).index.files.toList.Nodup := by
  have named : ∀ name ∈ linkedTree.current, IsFileName name :=
    List.forall_mem_singleton.mpr ⟨rfl, by decide⟩
  obtain ⟨covers, covered⟩ := covers_linkedPaths
  obtain ⟨reversed, -, more, -, once, -⟩ :=
    index_eq_of_covers named covers covered (List.reverse_perm _) (.refl _)
  exact ⟨named, covers, covered, reversed, more, once⟩

end Indexing

end Hyperlisting
