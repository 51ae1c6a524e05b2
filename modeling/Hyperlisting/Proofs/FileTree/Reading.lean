import Hyperlisting.Proofs.FileTree.Change

/-! Reading in a tree that has grown out of another one: a file is read from a canonical path as it
would have been read before, since directories alone lead to no file. -/

namespace Hyperlisting.FileTree

variable {tree origin : FileTree} {place result names : Location} {pieces : List OsText} {path : Path}

theorem Sound.above_append {first : OsText} (sound : tree.Sound)
    (found : tree.get? (place ++ first :: names) ≠ none) : tree.get? place = some .directory := by
  induction names using List.reverseRecOn with
  | nil => exact sound.above found
  | append_singleton names last ih =>
    rw [← List.cons_append, ← List.append_assoc] at found
    exact ih (by simp [sound.above found])

theorem land_names (place names : Location) : land place (names.map .name) = place ++ names := by
  induction names generalizing place with
  | nil => simp
  | cons name names ih => rw [List.map_cons, land_cons, ih, onward, ← List.append_cons]

theorem mem_passed_names {location : Location} (mem : location ∈ passed place (names.map .name)) :
    ∃ first rest, location = place ++ first :: rest ∧ first :: rest <+: names := by
  induction names generalizing place with
  | nil => cases mem
  | cons name names ih =>
    rcases List.mem_cons.mp mem with rfl | later
    · exact ⟨name, [], rfl, by simp⟩
    · obtain ⟨first, rest, rfl, isPrefix⟩ := ih later
      exact ⟨name, first :: rest, by simp [onward], by simpa using isPrefix⟩

theorem walkPieces_of_file {followLast : Bool} {content : ByteArray}
    {follow : Location → List OsText → Except SystemError Location}
    (isFile : tree.get? place = some (.file content)) :
    tree.walkPieces followLast follow place pieces =
      if pieces = [] then .ok place else .error .notDirectory := by
  cases pieces with
  | nil => rfl
  | cons piece rest => rw [walkPieces, isFile]; rfl

/-- No way leads through new directories to a file. -/
theorem not_file_below_new {followLast : Bool} {content : ByteArray}
    {follow : Location → List OsText → Except SystemError Location} (sound : tree.Sound)
    (wasSound : origin.Sound) (grown : Grown origin tree (passed place (names.map .name)))
    (unlinked : Unlinked origin (passed place (names.map .name)))
    (goes : pieces.filterMap Path.Component.ofPiece? = names.map .name)
    (absent : origin.get? place = none) (made : tree.get? place = some .directory)
    (ends : tree.walkPieces followLast follow place pieces = .ok result) :
    tree.get? result ≠ some (.file content) := by
  intro isFile
  have walked : Walked _ _ _ _ (tree.walkPieces followLast follow place pieces) :=
    walked_walkPieces sound grown unlinked goes made
  rw [ends] at walked
  obtain ⟨lands, -⟩ := walked
  rw [land_names] at lands
  subst lands
  cases names with
  | nil => simp [made] at isFile
  | cons first names =>
    have mem : place ++ first :: names ∈ passed place ((first :: names).map .name) := by
      rw [← land_names]
      obtain ⟨front, last, whole⟩ := (List.eq_nil_or_concat' (first :: names)).resolve_left (by simp)
      rw [whole, List.map_append]
      exact land_mem_passed ..
    have was := get?_of_grown (grown _ mem) isFile (by simp)
    have stood : origin.get? (place ++ first :: names) ≠ none := by simp [was]
    have directory := wasSound.above_append stood
    rw [absent] at directory
    cases directory

theorem walkPieces_file_iff {followLast : Bool} {content : ByteArray}
    {follow followBefore : Location → List OsText → Except SystemError Location} (sound : tree.Sound)
    (wasSound : origin.Sound) (grown : Grown origin tree (passed place (names.map .name)))
    (unlinked : Unlinked origin (passed place (names.map .name)))
    (goes : pieces.filterMap Path.Component.ofPiece? = names.map .name)
    (start : tree.get? place = some .directory) (startBefore : origin.get? place = some .directory) :
    tree.walkPieces followLast follow place pieces = .ok result ∧
        tree.get? result = some (.file content) ↔
      origin.walkPieces followLast followBefore place pieces = .ok result ∧
        origin.get? result = some (.file content) := by
  induction pieces generalizing place names with
  | nil =>
    simp only [walkPieces, Except.ok.injEq]
    constructor
    · rintro ⟨rfl, isFile⟩
      simp [start] at isFile
    · rintro ⟨rfl, isFile⟩
      simp [startBefore] at isFile
  | cons piece rest ih =>
    rw [walkPieces, walkPieces, start, startBefore]
    cases stands : Path.Component.ofPiece? piece with
    | none =>
      rw [List.filterMap_cons_none stands] at goes
      exact ih grown unlinked goes start startBefore
    | some step =>
      rw [List.filterMap_cons_some stands] at goes
      cases names with
      | nil => cases goes
      | cons name names =>
        obtain ⟨same, goesOn⟩ := List.cons.inj goes
        subst same
        obtain ⟨here, later⟩ := List.forall_mem_cons.mp grown
        obtain ⟨notLink, laterUnlinked⟩ := List.forall_mem_cons.mp unlinked
        change tree.get? (place ++ [name]) = origin.get? (place ++ [name]) ∨
          origin.get? (place ++ [name]) = none ∧ tree.get? (place ++ [name]) = _ at here
        change ∀ target, origin.get? (place ++ [name]) ≠ _ at notLink
        dsimp only
        split
        · simp
        · rcases here with same | ⟨absent, made⟩
          · rw [same]
            cases found : origin.get? (place ++ [name]) with
            | none => simp
            | some entry =>
              cases entry with
              | link target => exact absurd found (notLink target)
              | directory => exact ih later laterUnlinked goesOn (same.trans found) found
              | file other =>
                dsimp only
                rw [walkPieces_of_file (same.trans found), walkPieces_of_file found]
                split
                · simp only [Except.ok.injEq]
                  constructor
                  · rintro ⟨rfl, isFile⟩
                    exact ⟨rfl, same ▸ isFile⟩
                  · rintro ⟨rfl, isFile⟩
                    exact ⟨rfl, same.trans isFile⟩
                · simp
          · rw [made, absent]
            refine iff_of_false ?_ (by simp)
            rintro ⟨ends, isFile⟩
            exact not_file_below_new sound wasSound later laterUnlinked goesOn absent made ends isFile

theorem readText_of_get? {text : Text} {result : Location} (resolved : tree.resolve path = .ok result)
    (stands : tree.get? result = some (.file (String.ofList text).toUTF8)) :
    tree.readText path = .ok text :=
  readText_eq_ok.mpr ⟨result, _, resolved, stands, dif_pos (String.ofList text).isValidUTF8⟩

/-- A path in canonical form, on which no name is one of a link; there need be no file. -/
def Canonical (tree : FileTree) (path : Path) : Prop :=
  ∃ location, path = pathOf location ∧ (∀ name ∈ location, Path.IsFileName name) ∧
    Unlinked tree (tree.route path)

/-- A file is read from a canonical path as it would have been read before. -/
theorem readText_eq_ok_iff {text : Text} (canonical : origin.Canonical path)
    (outgrown : Outgrown origin tree (origin.route path)) (wasSound : origin.Sound) :
    tree.readText path = .ok text ↔ origin.readText path = .ok text := by
  obtain ⟨location, rfl, names, unlinked⟩ := canonical
  have steps := steps_pathOf names
  have start : origin.startOfPath (pathOf location) = [] := rfl
  have grown := outgrown.grown
  rw [route, start, steps] at unlinked grown
  have resolves (tree : FileTree) (result : Location) :
      tree.resolve (pathOf location) = .ok result ↔ refuse (pathOf location) = .ok () ∧
        tree.walk true linkLimit [] (pathOf location).parts.pieces = .ok result :=
    resolve_eq_ok_iff
  rw [readText_eq_ok, readText_eq_ok]
  have same (result : Location) (content : ByteArray) :
      tree.walk true linkLimit [] (pathOf location).parts.pieces = .ok result ∧
          tree.get? result = some (.file content) ↔
        origin.walk true linkLimit [] (pathOf location).parts.pieces = .ok result ∧
          origin.get? result = some (.file content) :=
    walkPieces_file_iff outgrown.sound wasSound grown unlinked steps rfl rfl
  refine exists_congr fun result => exists_congr fun content => ?_
  simp only [resolves, and_assoc]
  refine and_congr_right fun _ => ?_
  rw [← and_assoc, ← and_assoc]
  exact and_congr_left fun _ => same result content

end Hyperlisting.FileTree
