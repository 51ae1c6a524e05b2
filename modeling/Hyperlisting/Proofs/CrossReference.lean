import Hyperlisting.Proofs.Index.Table
import Hyperlisting.Proofs.Producers

/-! Which declaration a bare name means. Top-level declarations come first, of all files, and among
them the file's own; a nested declaration of the file is meant only where no file has a top-level
one. So a file's own declarations are passed over exactly if all of them are nested and another
file has a top-level one. -/

namespace Hyperlisting.CrossReference

variable {file : Path} {name : Text} {files : List (Path × Text)} {table : List Declaration}

/-- What a bare name means, read off the table: the first top-level declaration of the file, or
else of any file, or else the first nested one of the file. -/
def bareMeaning? (table : List Declaration) (name : Text) (file : Path) : Option Declaration :=
  let named := table.filter (·.name = name)
  (named.find? fun declaration => declaration.parent.isNone && declaration.file.sameAs file)
    |>.or (named.find? (·.parent.isNone))
    |>.or (named.find? (·.file.sameAs file))

theorem resolve_eq_bareMeaning? (files : List (Path × Text)) (name : Text) (file : Path) :
    resolve (Index.ofFiles files) name file false =
      bareMeaning? (Index.ofFiles files).declarations.toList name file := by
  have topLevel (declaration : Declaration) :
      decide (declaration.parent.isSome = false) = declaration.parent.isNone := by
    cases declaration.parent <;> rfl
  simp only [resolve, bareMeaning?, (Index.consistent_ofFiles files).lookup_eq, topLevel,
    Bool.false_eq_true, if_false]

/-- The file declares the name. -/
def FileDeclares (table : List Declaration) (name : Text) (file : Path) : Prop :=
  ∃ declaration ∈ table, declaration.name = name ∧ declaration.file.sameAs file = true

/-- Some file declares the name at its top level. -/
def HasTopLevel (table : List Declaration) (name : Text) : Prop :=
  ∃ declaration ∈ table, declaration.name = name ∧ declaration.parent = none

/-- The file declares the name at its top level. -/
def HasOwnTopLevel (table : List Declaration) (name : Text) (file : Path) : Prop :=
  ∃ declaration ∈ table, declaration.name = name ∧ declaration.parent = none ∧
    declaration.file.sameAs file = true

theorem HasOwnTopLevel.hasTopLevel (own : HasOwnTopLevel table name file) :
    HasTopLevel table name := by
  obtain ⟨declaration, mem, named, topLevel, _⟩ := own
  exact ⟨declaration, mem, named, topLevel⟩

theorem HasTopLevel.append (top : HasTopLevel table name) (added : List Declaration) :
    HasTopLevel (table ++ added) name := by
  obtain ⟨declaration, mem, namesake⟩ := top
  exact ⟨declaration, List.mem_append_left added mem, namesake⟩

theorem find?_named_eq_some {holds : Declaration → Bool} {chosen : Declaration}
    (found : (table.filter (·.name = name)).find? holds = some chosen) :
    chosen ∈ table ∧ chosen.name = name ∧ holds chosen = true := by
  obtain ⟨mem, named⟩ := List.mem_filter.mp (List.mem_of_find?_eq_some found)
  exact ⟨mem, of_decide_eq_true named, List.find?_some found⟩

theorem find?_named_isSome {holds : Declaration → Bool} :
    ((table.filter (·.name = name)).find? holds).isSome = true ↔
      ∃ declaration ∈ table, declaration.name = name ∧ holds declaration = true := by
  rw [List.find?_isSome]
  constructor
  · rintro ⟨declaration, mem, held⟩
    obtain ⟨mem, named⟩ := List.mem_filter.mp mem
    exact ⟨declaration, mem, of_decide_eq_true named, held⟩
  · rintro ⟨declaration, mem, named, held⟩
    exact ⟨declaration, List.mem_filter.mpr ⟨mem, decide_eq_true named⟩, held⟩

theorem hasOwnTopLevel_iff : HasOwnTopLevel table name file ↔
    ((table.filter (·.name = name)).find? fun declaration =>
      declaration.parent.isNone && declaration.file.sameAs file).isSome = true := by
  rw [find?_named_isSome]
  simp [HasOwnTopLevel]

theorem hasTopLevel_iff : HasTopLevel table name ↔
    ((table.filter (·.name = name)).find? (·.parent.isNone)).isSome = true := by
  rw [find?_named_isSome]
  simp [HasTopLevel]

theorem fileDeclares_iff : FileDeclares table name file ↔
    ((table.filter (·.name = name)).find? (·.file.sameAs file)).isSome = true := by
  rw [find?_named_isSome]
  rfl

/-- Where the file has a top-level declaration of the name, what is added behind changes nothing. -/
theorem bareMeaning?_of_hasOwnTopLevel (own : HasOwnTopLevel table name file) :
    ∃ chosen ∈ table, chosen.name = name ∧ chosen.file.sameAs file = true ∧
      ∀ more, bareMeaning? (table ++ more) name file = some chosen := by
  obtain ⟨chosen, found⟩ := Option.isSome_iff_exists.mp (hasOwnTopLevel_iff.mp own)
  obtain ⟨mem, named, held⟩ := find?_named_eq_some found
  refine ⟨chosen, mem, named, (Bool.and_eq_true_iff.mp held).2, ?_⟩
  intro more
  simp only [bareMeaning?, List.filter_append, List.find?_append, found, Option.some_or]

/-- Where only other files have top-level declarations of the name, one of theirs is meant. -/
theorem bareMeaning?_of_hasTopLevel (top : HasTopLevel table name)
    (notOwn : ¬ HasOwnTopLevel table name file) :
    ∃ chosen ∈ table, chosen.name = name ∧ chosen.file.sameAs file = false ∧
      bareMeaning? table name file = some chosen := by
  obtain ⟨chosen, found⟩ := Option.isSome_iff_exists.mp (hasTopLevel_iff.mp top)
  obtain ⟨mem, named, topLevel⟩ := find?_named_eq_some found
  have missed := Option.not_isSome_iff_eq_none.mp (mt hasOwnTopLevel_iff.mpr notOwn)
  have elsewhere : chosen.file.sameAs file = false := by
    rw [Bool.eq_false_iff]
    intro sameFile
    exact notOwn ⟨chosen, mem, named, Option.isNone_iff_eq_none.mp topLevel, sameFile⟩
  refine ⟨chosen, mem, named, elsewhere, ?_⟩
  simp only [bareMeaning?, missed, found, Option.none_or, Option.some_or]

/-- Where no file has a top-level declaration of the name, the first nested one of the file is
meant, and no nested one that is added behind changes that. -/
theorem bareMeaning?_of_not_hasTopLevel (declared : FileDeclares table name file) :
    ∃ chosen ∈ table, chosen.name = name ∧ chosen.file.sameAs file = true ∧
      ∀ more, ¬ HasTopLevel (table ++ more) name →
        bareMeaning? (table ++ more) name file = some chosen := by
  obtain ⟨chosen, found⟩ := Option.isSome_iff_exists.mp (fileDeclares_iff.mp declared)
  obtain ⟨mem, named, sameFile⟩ := find?_named_eq_some found
  refine ⟨chosen, mem, named, sameFile, ?_⟩
  intro more none
  have missed := Option.not_isSome_iff_eq_none.mp (mt hasTopLevel_iff.mpr none)
  have noneOwn : ¬ HasOwnTopLevel (table ++ more) name file := mt HasOwnTopLevel.hasTopLevel none
  have missedOwn := Option.not_isSome_iff_eq_none.mp (mt hasOwnTopLevel_iff.mpr noneOwn)
  simp only [bareMeaning?, missed, missedOwn, Option.none_or]
  rw [List.filter_append, List.find?_append, found, Option.some_or]

/-- A file's own declaration is meant unless all of its own are nested and another file has a
top-level one; and what is added behind changes nothing unless it makes this so. -/
theorem bareMeaning?_isOwn_iff (declared : FileDeclares table name file) :
    ∃ chosen ∈ table, chosen.name = name ∧ bareMeaning? table name file = some chosen ∧
      (chosen.file.sameAs file = true ↔
        HasOwnTopLevel table name file ∨ ¬ HasTopLevel table name) ∧
      ∀ added, HasOwnTopLevel table name file ∨ ¬ HasTopLevel (table ++ added) name →
        bareMeaning? (table ++ added) name file = some chosen := by
  by_cases own : HasOwnTopLevel table name file
  · obtain ⟨chosen, mem, named, sameFile, kept⟩ := bareMeaning?_of_hasOwnTopLevel own
    refine ⟨chosen, mem, named, ?_, iff_of_true sameFile (.inl own), ?_⟩
    · simpa using kept []
    · exact fun added _ => kept added
  by_cases top : HasTopLevel table name
  · obtain ⟨chosen, mem, named, elsewhere, found⟩ := bareMeaning?_of_hasTopLevel top own
    refine ⟨chosen, mem, named, found, ?_, ?_⟩
    · apply iff_of_false
      · simp [elsewhere]
      · simp [own, top]
    · intro added still
      exact absurd (top.append added) (still.resolve_left own)
  · obtain ⟨chosen, mem, named, sameFile, kept⟩ := bareMeaning?_of_not_hasTopLevel declared
    refine ⟨chosen, mem, named, ?_, iff_of_true sameFile (.inr top), ?_⟩
    · simpa using kept [] (by simpa using top)
    · exact fun added still => kept added (still.resolve_left own)

theorem declarations_isPrefix_append (files more : List (Path × Text)) :
    (Index.ofFiles files).declarations.toList <+:
      (Index.ofFiles (files ++ more)).declarations.toList := by
  rw [Index.ofFiles, Index.ofFiles, List.foldl_append]
  apply Index.declarations_isPrefix_foldl_addFile

/-- A bare name that its file declares always means something. It means a declaration of the file
exactly if the file has a top-level one or no file has; and then it goes on to mean the same one
whatever files are added, unless all of the file's are nested and a top-level one comes in. -/
theorem resolve_isOwn_iff
    (declared : FileDeclares (Index.ofFiles files).declarations.toList name file) :
    ∃ chosen ∈ (Index.ofFiles files).declarations.toList, chosen.name = name ∧
      resolve (Index.ofFiles files) name file false = some chosen ∧
      (chosen.file.sameAs file = true ↔
        HasOwnTopLevel (Index.ofFiles files).declarations.toList name file ∨
          ¬ HasTopLevel (Index.ofFiles files).declarations.toList name) ∧
      ∀ more, HasOwnTopLevel (Index.ofFiles files).declarations.toList name file ∨
          ¬ HasTopLevel (Index.ofFiles (files ++ more)).declarations.toList name →
        resolve (Index.ofFiles (files ++ more)) name file false = some chosen := by
  simp only [resolve_eq_bareMeaning?]
  obtain ⟨chosen, mem, named, found, isOwn, kept⟩ := bareMeaning?_isOwn_iff declared
  refine ⟨chosen, mem, named, found, isOwn, ?_⟩
  intro more still
  obtain ⟨added, whole⟩ := declarations_isPrefix_append files more
  rw [← whole] at still ⊢
  exact kept added still

/-- A method in one file and a function of the same name in another. -/
def namesakeFiles : List (Path × Text) :=
  [(⟨"/r/a.py".toList⟩, "class A:\n  def run(self): pass\n".toList),
    (⟨"/r/b.py".toList⟩, "def run(): pass\n".toList)]

theorem declarations_namesakeFiles :
    (Index.ofFiles namesakeFiles).declarations.toList =
      [⟨"A".toList, .classType, ⟨"/r/a.py".toList⟩, 1, 6, 7, none⟩,
        ⟨"run".toList, .function, ⟨"/r/a.py".toList⟩, 2, 15, 18, some 0⟩,
        ⟨"run".toList, .function, ⟨"/r/b.py".toList⟩, 1, 4, 7, none⟩] := by
  decide +kernel

theorem resolve_isOwn_iff_namesakes :
    FileDeclares (Index.ofFiles namesakeFiles).declarations.toList "run".toList
        ⟨"/r/b.py".toList⟩ ∧
      ∀ more, ∃ chosen ∈ (Index.ofFiles namesakeFiles).declarations.toList,
        chosen.file.sameAs ⟨"/r/b.py".toList⟩ = true ∧
          resolve (Index.ofFiles (namesakeFiles ++ more)) "run".toList ⟨"/r/b.py".toList⟩ false =
            some chosen := by
  have own : HasOwnTopLevel (Index.ofFiles namesakeFiles).declarations.toList "run".toList
      ⟨"/r/b.py".toList⟩ := by
    rw [declarations_namesakeFiles]
    exact ⟨_, List.mem_of_mem_tail (List.mem_of_mem_tail List.mem_cons_self), rfl, rfl, rfl⟩
  have declared : FileDeclares (Index.ofFiles namesakeFiles).declarations.toList "run".toList
      ⟨"/r/b.py".toList⟩ := by
    obtain ⟨declaration, mem, named, _, sameFile⟩ := own
    exact ⟨declaration, mem, named, sameFile⟩
  obtain ⟨chosen, mem, _, _, isOwn, kept⟩ := resolve_isOwn_iff declared
  refine ⟨declared, fun more => ⟨chosen, mem, isOwn.mpr (.inl own), kept more (.inl own)⟩⟩

/-- The method is what its own file means by the name, until the other file is added. -/
theorem resolve_otherFile_namesakes :
    (∃ declaration ∈ (Index.ofFiles namesakeFiles).declarations.toList,
        declaration.name = "run".toList ∧ declaration.file = ⟨"/r/a.py".toList⟩) ∧
      resolve (Index.ofFiles (namesakeFiles.take 1)) "run".toList ⟨"/r/a.py".toList⟩ false =
        some ⟨"run".toList, .function, ⟨"/r/a.py".toList⟩, 2, 15, 18, some 0⟩ ∧
      resolve (Index.ofFiles namesakeFiles) "run".toList ⟨"/r/a.py".toList⟩ false =
        some ⟨"run".toList, .function, ⟨"/r/b.py".toList⟩, 1, 4, 7, none⟩ := by
  refine ⟨?_, by decide +kernel, by decide +kernel⟩
  rw [declarations_namesakeFiles]
  exact ⟨_, List.mem_of_mem_tail List.mem_cons_self, rfl, rfl⟩

end Hyperlisting.CrossReference
