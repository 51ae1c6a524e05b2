import Hyperlisting.Proofs.FileTree.Reading
import Hyperlisting.Proofs.FileTree.Temporary

/-! Trees of files and directories alone. Without links a path of names leads to the place of these
names, if anything is there. What a path leads to in such a tree, it still leads to in a tree that
has kept every entry. -/

namespace Hyperlisting.FileTree

open Hyperlisting.Path (IsFileName)

variable {tree after later : FileTree} {place location result : Location} {pieces : List OsText}
  {path : Path} {name : OsText}

/-- A sound tree without links, in which every entry has names that a path can have. -/
structure Plain (tree : FileTree) : Prop where
  sound : tree.Sound
  unlinked (place : Location) (target : Path) : tree.get? place ≠ some (.link target)
  named {place : Location} : tree.get? place ≠ none → ∀ name ∈ place, IsFileName name

theorem plain_of_entries (sound : tree.Sound) (noLinks : tree.links = [])
    (named : ∀ entry ∈ tree.entries.toList, ∀ name ∈ entry.1, IsFileName name) : tree.Plain where
  sound := sound
  unlinked := ne_link_of_links noLinks
  named {place} found name within := by
    obtain ⟨entry, stands⟩ := Option.ne_none_iff_exists'.mp found
    exact named _ (mem_toList_of_get? (List.ne_nil_of_mem within) stands) name within

theorem Plain.current_named (plain : tree.Plain) : ∀ name ∈ tree.current, IsFileName name :=
  plain.named (by simp [plain.sound.current])

/-- A path leads to a directory or a file. -/
theorem Plain.get?_of_resolve (plain : tree.Plain) (resolved : tree.resolve path = .ok location) :
    tree.get? location = some .directory ∨
      ∃ content, tree.get? location = some (.file content) := by
  have invariant : WalkInvariant tree fun place => tree.get? place ≠ none := {
    root := by simp
    up := fun _ directory => by simp [plain.sound.directory_dropLast directory]
    down := fun _ _ _ found _ => by simp [found] }
  have found := invariant.resolve (.inr (by simp [plain.sound.current])) resolved
  obtain ⟨entry, stands⟩ := Option.ne_none_iff_exists'.mp found
  cases entry with
  | directory => exact .inl stands
  | file content => exact .inr ⟨content, stands⟩
  | link target => exact absurd stands (plain.unlinked location target)

/-- A canonical path is the path of a place where something is. -/
theorem Plain.exists_of_canonical {file : Path} (plain : tree.Plain)
    (canonical : tree.canonical path = .ok file) :
    ∃ location, file = pathOf location ∧ (∀ name ∈ location, IsFileName name) ∧
      tree.get? location ≠ none := by
  obtain ⟨location, resolved, same⟩ := exists_resolve_of_canonical canonical
  have found : tree.get? location ≠ none := by
    rcases plain.get?_of_resolve resolved with directory | ⟨content, isFile⟩
    · simp [directory]
    · simp [isFile]
  exact ⟨location, same, plain.named found, found⟩

theorem Plain.outgrown (plain : tree.Plain) (places : List Location) :
    Outgrown tree tree places where
  sound := plain.sound
  current := rfl
  grown _ _ := .inl rfl
  unlinked place _ := plain.unlinked place

/-- A path leads to where its steps lead, if anywhere. -/
theorem Plain.eq_destination_of_resolve (plain : tree.Plain)
    (resolved : tree.resolve path = .ok location) : location = tree.destination path := by
  have walked := (plain.outgrown _).walked_resolve (resolve_eq_ok_iff.mp resolved).1
  rw [resolved] at walked
  exact walked.1

/-- A place that lookups accept the path of. -/
structure Reachable (location : Location) : Prop where
  accepted : refuse (pathOf location) = .ok ()
  short : ∀ name ∈ location, name.length ≤ nameLimit

theorem Plain.walkPieces_names {follow : Location → List OsText → Except SystemError Location}
    {names : Location} (plain : tree.Plain) (directory : tree.get? place = some .directory)
    (fits : ∀ name ∈ names, IsFileName name) :
    tree.walkPieces true follow place names = .ok result ↔
      result = place ++ names ∧ (∀ name ∈ names, name.length ≤ nameLimit) ∧
        tree.get? (place ++ names) ≠ none := by
  induction names generalizing place with
  | nil => simp [walkPieces, directory, eq_comm]
  | cons name names ih =>
    obtain ⟨fit, fits⟩ := List.forall_mem_cons.mp fits
    rw [walkPieces_cons_eq_ok_iff, and_iff_right directory, List.append_cons place name names,
      List.forall_mem_cons]
    constructor
    · intro passes
      cases passes with
      | idle stands ends => cases stands.symm.trans fit.ofPiece
      | up stands ends => cases stands.symm.trans fit.ofPiece
      | @enter entry stands short found notLink ends =>
        cases entry with
        | link target => exact absurd rfl (notLink target)
        | directory =>
          obtain ⟨lands, rest, there⟩ := (ih found fits).mp ends
          exact ⟨lands, ⟨short, rest⟩, there⟩
        | file content =>
          rw [walkPieces_of_file found] at ends
          split at ends
          · rename_i none
            subst none
            simp [short, found, (Except.ok.inj ends).symm]
          · cases ends
      | stop stands short found last ends => exact absurd found (plain.unlinked _ _)
      | follow stands short found goesOn ends => exact absurd found (plain.unlinked _ _)
    · rintro ⟨lands, ⟨short, rest⟩, there⟩
      obtain ⟨entry, found, notLink, ends⟩ : ∃ entry,
          tree.get? (place ++ [name]) = some entry ∧ (∀ target, entry ≠ .link target) ∧
            tree.walkPieces true follow (place ++ [name]) names = .ok result := by
        cases names with
        | nil =>
          rw [List.append_nil] at lands there
          obtain ⟨entry, found⟩ := Option.ne_none_iff_exists'.mp there
          refine ⟨entry, found, ?_, congrArg Except.ok lands.symm⟩
          rintro target rfl
          exact plain.unlinked _ _ found
        | cons next names =>
          have found := plain.sound.above_append there
          exact ⟨.directory, found, by simp, (ih found fits).mpr ⟨lands, rest, there⟩⟩
      exact .enter fit.ofPiece short found notLink ends

/-- The path of a place leads there and nowhere else. -/
theorem Plain.resolve_pathOf (plain : tree.Plain) (fits : ∀ name ∈ location, IsFileName name) :
    tree.resolve (pathOf location) = .ok result ↔
      result = location ∧ Reachable location ∧ tree.get? location ≠ none := by
  have pieces : tree.walk true linkLimit [] (pathOf location).parts.pieces =
      tree.walk true linkLimit [] location := by
    cases location with
    | nil => rfl
    | cons name location =>
      rw [pathOf, ← Path.ofParts, Path.parts_ofParts (proper_location fits) (by simp)]
  have walked : tree.walk true linkLimit [] location = .ok result ↔ _ :=
    plain.walkPieces_names (get?_root tree) fits
  constructor
  · intro resolved
    obtain ⟨accepted, ends⟩ := resolve_eq_ok_iff.mp resolved
    rw [startOf, if_pos (isAbsolute_pathOf location), pieces, walked] at ends
    exact ⟨ends.1, ⟨accepted, ends.2.1⟩, ends.2.2⟩
  · rintro ⟨lands, ⟨accepted, short⟩, found⟩
    rw [resolve_of_accepted accepted, startOf, if_pos (isAbsolute_pathOf location), pieces, walked]
    exact ⟨lands, short, found⟩

theorem Plain.find_pathOf {entry : Entry} (plain : tree.Plain)
    (fits : ∀ name ∈ location, IsFileName name) :
    tree.find (pathOf location) = .ok entry ↔
      Reachable location ∧ tree.get? location = some entry := by
  have leads {result : Location} : tree.resolve (pathOf location) = .ok result ↔ _ :=
    plain.resolve_pathOf fits
  rw [find_eq_ok_iff]
  constructor
  · rintro ⟨result, resolved, stands⟩
    obtain ⟨rfl, reachable, -⟩ := leads.mp resolved
    exact ⟨reachable, stands⟩
  · rintro ⟨reachable, stands⟩
    exact ⟨location, leads.mpr ⟨rfl, reachable, by simp [stands]⟩, stands⟩

theorem Plain.isFile_pathOf (plain : tree.Plain) (fits : ∀ name ∈ location, IsFileName name) :
    tree.isFile (pathOf location) = true ↔
      Reachable location ∧ ∃ content, tree.get? location = some (.file content) := by
  rw [isFile_iff, ← exists_and_left]
  exact exists_congr fun content => plain.find_pathOf fits

theorem Plain.isDirectory_pathOf (plain : tree.Plain) (fits : ∀ name ∈ location, IsFileName name) :
    tree.isDirectory (pathOf location) = true ↔
      Reachable location ∧ tree.get? location = some .directory := by
  rw [isDirectory_iff, plain.find_pathOf fits]

theorem Plain.readText_pathOf {text : Text} (plain : tree.Plain)
    (fits : ∀ name ∈ location, IsFileName name) :
    tree.readText (pathOf location) = .ok text ↔
      Reachable location ∧ ∃ content, tree.get? location = some (.file content) ∧
        String.fromUTF8? content = some (String.ofList text) := by
  rw [readText_eq_ok]
  constructor
  · rintro ⟨result, content, resolved, isFile, decoded⟩
    obtain ⟨rfl, reachable, -⟩ := (plain.resolve_pathOf fits).mp resolved
    exact ⟨reachable, content, isFile, decoded⟩
  · rintro ⟨reachable, content, isFile, decoded⟩
    refine ⟨location, content, (plain.resolve_pathOf fits).mpr ⟨rfl, reachable, ?_⟩, isFile, decoded⟩
    simp [isFile]

theorem exists_intercalate_concat (front : List OsText) (last : OsText) :
    ∃ before, [Path.separator].intercalate (front ++ [last]) = before ++ last := by
  induction front with
  | nil => exact ⟨[], List.intercalate_singleton⟩
  | cons first front ih =>
    obtain ⟨before, whole⟩ := ih
    have nonempty : front ++ [last] ≠ [] := by simp
    obtain ⟨next, rest, more⟩ := List.exists_cons_of_ne_nil nonempty
    refine ⟨first ++ [Path.separator] ++ before, ?_⟩
    rw [List.cons_append, more, List.intercalate_cons_cons, ← more, whole]
    simp

/-- The path of an entry is that of its directory, followed by its name. -/
theorem join_pathOf (fits : ∀ part ∈ location ++ [name], IsFileName part) :
    (pathOf location).join ⟨name⟩ = pathOf (location ++ [name]) := by
  have fit : IsFileName name := fits name (by simp)
  have isRelative := Path.isAbsolute_of_isFileName fit
  rcases List.eq_nil_or_concat' location with rfl | ⟨front, last, rfl⟩
  · rw [Path.join, if_neg (by simp [isRelative]), if_pos (by rfl)]
    simp [pathOf]
  · have lastFit : IsFileName last := fits last (by simp)
    obtain ⟨before, whole⟩ := exists_intercalate_concat front last
    have noSlash : (pathOf (front ++ [last])).bytes.getLast? ≠ some Path.separator := by
      have nonempty : last ≠ [] := by
        rintro rfl
        cases lastFit.ofPiece
      rw [pathOf, whole, ← List.cons_append, List.getLast?_append_of_ne_nil _ nonempty]
      exact fun ends => lastFit.slashless (List.mem_of_getLast? ends)
    have joined : (pathOf (front ++ [last])).join ⟨name⟩ =
        ⟨(pathOf (front ++ [last])).bytes ++ Path.separator :: name⟩ := by
      rw [Path.join, if_neg (by simp [isRelative]), if_neg]
      rw [Bool.or_eq_true, beq_iff_eq]
      exact fun ends => ends.elim (fun empty => by cases empty) noSlash
    have front_fits : ∀ name ∈ front ++ [last], IsFileName name :=
      fun name mem => fits name (List.mem_append_left _ mem)
    have parts : (pathOf (front ++ [last])).parts = ⟨some .root, front ++ [last]⟩ :=
      Path.parts_ofParts (proper_location front_fits) (by simp)
    have bytes_ne : (pathOf (front ++ [last])).bytes ≠ [] := by simp [pathOf]
    have cut : (Path.ofBytes (_ ++ _ :: name)).parts = _ := Path.parts_append bytes_ne
    rw [joined, ← Path.ofParts_parts ⟨_⟩, cut, parts, Path.splitOn_of_slashless fit.slashless]
    rfl

/-- Every file and every directory is still there and still one. -/
structure Kept (tree after : FileTree) : Prop where
  current : after.current = tree.current
  room : after.room = tree.room
  directory {place : Location} : tree.get? place = some .directory →
    after.get? place = some .directory
  file {place : Location} {content : ByteArray} : tree.get? place = some (.file content) →
    ∃ content, after.get? place = some (.file content)

theorem Kept.refl (tree : FileTree) : tree.Kept tree where
  current := rfl
  room := rfl
  directory := id
  file {_ content} isFile := ⟨content, isFile⟩

theorem Kept.trans (kept : tree.Kept after) (keeps : after.Kept later) : tree.Kept later where
  current := keeps.current.trans kept.current
  room := keeps.room.trans kept.room
  directory := keeps.directory ∘ kept.directory
  file isFile := by
    obtain ⟨_, isFile⟩ := kept.file isFile
    exact keeps.file isFile

section Kept

variable (kept : tree.Kept after) (plain : tree.Plain)

include kept plain

theorem Kept.walkPieces {follow follow' : Location → List OsText → Except SystemError Location}
    (ends : tree.walkPieces true follow place pieces = .ok result) :
    after.walkPieces true follow' place pieces = .ok result := by
  induction pieces generalizing place with
  | nil => exact ends
  | cons piece rest ih =>
    obtain ⟨directory, passes⟩ := walkPieces_cons_eq_ok_iff.mp ends
    refine walkPieces_cons_eq_ok_iff.mpr ⟨kept.directory directory, ?_⟩
    cases passes with
    | idle stands ends => exact .idle stands (ih ends)
    | up stands ends => exact .up stands (ih ends)
    | @enter entry stands short found notLink ends =>
      cases entry with
      | directory => exact .enter stands short (kept.directory found) (by simp) (ih ends)
      | file content =>
        obtain ⟨_, isFile⟩ := kept.file found
        exact .enter stands short isFile (by simp) (ih ends)
      | link target => exact absurd rfl (notLink target)
    | stop stands short found last ends => exact absurd found (plain.unlinked _ _)
    | follow stands short found goesOn ends => exact absurd found (plain.unlinked _ _)

/-- What a path led to, it still leads to. -/
theorem Kept.resolve (resolved : tree.resolve path = .ok location) :
    after.resolve path = .ok location := by
  obtain ⟨accepted, ends⟩ := resolve_eq_ok_iff.mp resolved
  rw [resolve_of_accepted accepted, kept.current]
  exact kept.walkPieces plain ends

theorem Kept.canonical {file : Path} (canonical : tree.canonical path = .ok file) :
    after.canonical path = .ok file := by
  obtain ⟨location, resolved, rfl⟩ := exists_resolve_of_canonical canonical
  rw [FileTree.canonical, kept.resolve plain resolved]
  rfl

theorem Kept.isDirectory_eq (resolved : tree.resolve path = .ok location) :
    after.isDirectory path = tree.isDirectory path := by
  rw [Bool.eq_iff_iff, isDirectory_iff, isDirectory_iff, find_eq_ok_iff, find_eq_ok_iff,
    kept.resolve plain resolved, resolved]
  simp only [Except.ok.injEq, exists_eq_left']
  rcases plain.get?_of_resolve resolved with directory | ⟨content, found⟩
  · simp [directory, kept.directory directory]
  · obtain ⟨other, isFile⟩ := kept.file found
    simp [found, isFile]

theorem Kept.isDirectory (directory : tree.isDirectory path = true) :
    after.isDirectory path = true := by
  obtain ⟨location, resolved, -⟩ := find_eq_ok_iff.mp (isDirectory_iff.mp directory)
  rw [kept.isDirectory_eq plain resolved, directory]

/-- The path of a place where something is leads to a file or does not, as it did. -/
theorem Kept.isFile_pathOf_eq (plainAfter : after.Plain) (found : tree.get? location ≠ none) :
    after.isFile (pathOf location) = tree.isFile (pathOf location) := by
  have fits := plain.named found
  rw [Bool.eq_iff_iff, plainAfter.isFile_pathOf fits, plain.isFile_pathOf fits]
  refine and_congr_right fun _ => ?_
  obtain ⟨entry, stands⟩ := Option.ne_none_iff_exists'.mp found
  cases entry with
  | directory => simp [stands, kept.directory stands]
  | link target => exact absurd stands (plain.unlinked _ _)
  | file content => exact iff_of_true (kept.file stands) ⟨content, stands⟩

end Kept

end Hyperlisting.FileTree
