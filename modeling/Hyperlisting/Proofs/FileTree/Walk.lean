import Hyperlisting.FileTree.Lookup
import Hyperlisting.Proofs.Page
import Hyperlisting.Proofs.Path

/-! Where a lookup ends. It stands on a name in a directory, all of whose directories it has come
through or could have, and it ends on no link that it was to follow. So the absolute path of where
a lookup ends leads there again. -/

namespace Hyperlisting.FileTree

open Hyperlisting.Path (Component IsFileName)

variable {tree : FileTree} {place result location : Location} {pieces : List OsText} {path : Path}

theorem proper_location (names : ∀ name ∈ location, IsFileName name) :
    Path.Parts.Proper ⟨some .root, location⟩ where
  slashless := fun name mem => (names name mem).slashless
  start := .inl rfl

theorem filterMap_names (names : ∀ name ∈ location, IsFileName name) :
    location.filterMap Component.ofPiece? = location.map .name := by
  induction location with
  | nil => rfl
  | cons name location ih =>
    obtain ⟨first, rest⟩ := List.forall_mem_cons.mp names
    rw [List.filterMap_cons_some first.ofPiece, ih rest]
    rfl

theorem steps_pathOf (names : ∀ name ∈ location, IsFileName name) :
    (pathOf location).steps = location.map .name := by
  rw [← filterMap_names names]
  exact Path.steps_ofParts (proper_location names)

theorem isAbsolute_pathOf (location : Location) : (pathOf location).isAbsolute = true := rfl

theorem components_pathOf (names : ∀ name ∈ location, IsFileName name) :
    (pathOf location).components = .root :: location.map .name := by
  rw [Path.components_of_isAbsolute (isAbsolute_pathOf location), steps_pathOf names]

/-- Between a directory and what lies below it in a canonical path are names alone. -/
theorem names_of_below? {root relative : Path} (names : ∀ name ∈ location, IsFileName name)
    (found : (pathOf location).below? root = some relative)
    (isRelative : relative.isAbsolute = false) :
    ∃ between : Location, relative.components = between.map .name ∧
      relative.steps = between.map .name := by
  have below := Path.components_below? found
  rw [components_pathOf names] at below
  obtain ⟨between, components⟩ : ∃ between : Location,
      relative.components = between.map .name := by
    generalize root.components.length = depth at below
    cases depth with
    | zero =>
      rw [List.drop_zero] at below
      have absolute := Path.isAbsolute_iff_components.mpr (by rw [below, List.head?_cons])
      cases isRelative.symm.trans absolute
    | succ depth =>
      rw [List.drop_succ_cons, ← List.map_drop] at below
      exact ⟨_, below⟩
  have start : relative.parts.start = none := by
    rw [Path.start_eq, components]
    cases between <;> rfl
  refine ⟨between, components, ?_⟩
  rw [← components, Path.components_eq, start]
  rfl

theorem eq_of_map_name {other : Location}
    (same : location.map Component.name = other.map Component.name) : location = other :=
  (List.map_inj_right fun _ _ => Component.name.inj).mp same

/-- How a walk gets past a piece in a directory and ends: the piece leads nowhere, up, to an entry
that is no link, or to a link, at which the walk ends or whose target it follows. -/
inductive PassesPiece (tree : FileTree) (followLast : Bool)
    (follow : Location → List OsText → Except SystemError Location) (place : Location) (piece : OsText)
    (rest : List OsText) (result : Location) : Prop
  | idle (stands : Component.ofPiece? piece = none)
      (ends : tree.walkPieces followLast follow place rest = .ok result)
  | up (stands : Component.ofPiece? piece = some .parent)
      (ends : tree.walkPieces followLast follow place.dropLast rest = .ok result)
  | enter {entry : Entry} (stands : Component.ofPiece? piece = some (.name piece))
      (short : piece.length ≤ nameLimit) (found : tree.get? (place ++ [piece]) = some entry)
      (notLink : ∀ target, entry ≠ .link target)
      (ends : tree.walkPieces followLast follow (place ++ [piece]) rest = .ok result)
  | stop {target : Path} (stands : Component.ofPiece? piece = some (.name piece))
      (short : piece.length ≤ nameLimit)
      (found : tree.get? (place ++ [piece]) = some (.link target))
      (last : (rest.isEmpty && !followLast) = true) (ends : place ++ [piece] = result)
  | follow {target : Path} (stands : Component.ofPiece? piece = some (.name piece))
      (short : piece.length ≤ nameLimit)
      (found : tree.get? (place ++ [piece]) = some (.link target))
      (goesOn : (rest.isEmpty && !followLast) = false)
      (ends : follow (startOf place target) (target.parts.pieces ++ rest) = .ok result)

theorem walkPieces_cons_eq_ok_iff {followLast : Bool}
    {follow : Location → List OsText → Except SystemError Location} {piece : OsText}
    {rest : List OsText} : tree.walkPieces followLast follow place (piece :: rest) = .ok result ↔
      tree.get? place = some .directory ∧
        tree.PassesPiece followLast follow place piece rest result := by
  constructor
  · intro ends
    unfold walkPieces at ends
    split at ends
    · rename_i directory stands
      exact ⟨directory, .idle stands ends⟩
    · rename_i directory stands
      obtain rfl := Path.ofPiece?_eq_name stands
      refine ⟨directory, ?_⟩
      split at ends
      · cases ends
      · rename_i short
        have short := Nat.not_lt.mp short
        split at ends
        · cases ends
        · rename_i found
          split at ends
          · rename_i last
            exact .stop stands short found last (Except.ok.inj ends)
          · rename_i goesOn
            exact .follow stands short found (Bool.eq_false_iff.mpr goesOn) ends
        · rename_i notLink found
          exact .enter stands short found (fun _ isLink => notLink _ isLink) ends
    · rename_i notName directory stands
      rcases Path.ofPiece?_cases stands with rfl | ⟨name, rfl⟩
      · exact ⟨directory, .up stands ends⟩
      · exact absurd rfl (notName name)
    · cases ends
    · cases ends
  · rintro ⟨directory, passes⟩
    rw [walkPieces, directory]
    cases passes with
    | idle stands ends => rwa [stands]
    | up stands ends => rwa [stands]
    | @enter entry stands short found notLink ends =>
      rw [stands]
      dsimp only
      rw [if_neg (Nat.not_lt.mpr short), found]
      cases entry with
      | link target => exact absurd rfl (notLink target)
      | directory => exact ends
      | file content => exact ends
    | stop stands short found last ends =>
      rw [stands]
      dsimp only
      rw [if_neg (Nat.not_lt.mpr short), found]
      dsimp only
      rw [if_pos last, ends]
    | follow stands short found goesOn ends =>
      rw [stands]
      dsimp only
      rw [if_neg (Nat.not_lt.mpr short), found]
      dsimp only
      rwa [if_neg (Bool.eq_false_iff.mp goesOn)]

/-- What holds of the root, of the directory above and of each entry without a link to follow,
holds of where a walk ends. -/
structure WalkInvariant (tree : FileTree) (Holds : Location → Prop) : Prop where
  root : Holds []
  up {place : Location} : Holds place → tree.get? place = some .directory → Holds place.dropLast
  down {place : Location} {name : OsText} {entry : Entry} : Holds place →
    tree.get? place = some .directory → IsFileName name →
    tree.get? (place ++ [name]) = some entry → (∀ target, entry ≠ .link target) →
    Holds (place ++ [name])

theorem WalkInvariant.walkPieces {Holds : Location → Prop} (invariant : WalkInvariant tree Holds)
    {follow : Location → List OsText → Except SystemError Location}
    (follows : ∀ place pieces, Holds place → (∀ piece ∈ pieces, Path.separator ∉ piece) →
      ∀ result, follow place pieces = .ok result → Holds result)
    (holds : Holds place) (slashless : ∀ piece ∈ pieces, Path.separator ∉ piece)
    (ends : tree.walkPieces true follow place pieces = .ok result) : Holds result := by
  induction pieces generalizing place with
  | nil =>
    obtain rfl := Except.ok.inj ends
    exact holds
  | cons piece rest ih =>
    obtain ⟨pieceSlashless, restSlashless⟩ := List.forall_mem_cons.mp slashless
    obtain ⟨directory, passes⟩ := walkPieces_cons_eq_ok_iff.mp ends
    cases passes with
    | idle stands ends => exact ih holds restSlashless ends
    | up stands ends => exact ih (invariant.up holds directory) restSlashless ends
    | enter stands short found notLink ends =>
      exact ih (invariant.down holds directory ⟨stands, pieceSlashless⟩ found notLink)
        restSlashless ends
    | stop stands short found last ends => simp at last
    | @follow target stands short found goesOn ends =>
      refine follows _ _ ?_ ?_ result ends
      · unfold startOf
        split
        · exact invariant.root
        · exact holds
      · rw [List.forall_mem_append]
        exact ⟨target.slashless_of_mem_pieces, restSlashless⟩

theorem WalkInvariant.walk {Holds : Location → Prop} (invariant : WalkInvariant tree Holds)
    {links : Nat} (holds : Holds place) (slashless : ∀ piece ∈ pieces, Path.separator ∉ piece)
    (ends : tree.walk true links place pieces = .ok result) : Holds result := by
  induction links generalizing place pieces result with
  | zero =>
    refine invariant.walkPieces ?_ holds slashless ends
    intro _ _ _ _ _ tooMany
    cases tooMany
  | succ links ih =>
    refine invariant.walkPieces ?_ holds slashless ends
    exact fun _ _ holds slashless _ ends => ih holds slashless ends

theorem resolve_of_accepted (accepted : refuse path = .ok ()) (tree : FileTree) :
    tree.resolve path =
      tree.walk true linkLimit (startOf tree.current path) path.parts.pieces := by
  rw [resolve, accepted, ok_bind]

theorem resolve_eq_ok_iff : tree.resolve path = .ok location ↔ refuse path = .ok () ∧
    tree.walk true linkLimit (startOf tree.current path) path.parts.pieces = .ok location := by
  constructor
  · intro resolved
    obtain ⟨_, accepted, ends⟩ := exists_of_bind_eq_ok resolved
    exact ⟨accepted, ends⟩
  · rintro ⟨accepted, ends⟩
    rw [resolve_of_accepted accepted, ends]

theorem exists_resolve_of_canonical {file : Path} (canonical : tree.canonical path = .ok file) :
    ∃ location, tree.resolve path = .ok location ∧ file = pathOf location := by
  unfold FileTree.canonical at canonical
  cases resolved : tree.resolve path with
  | error cause =>
    rw [resolved] at canonical
    cases canonical
  | ok location =>
    rw [resolved] at canonical
    exact ⟨location, rfl, (Except.ok.inj canonical).symm⟩

/-- What holds of the start of a path holds of where it leads. -/
theorem WalkInvariant.resolve {Holds : Location → Prop} (invariant : WalkInvariant tree Holds)
    (start : path.isAbsolute = true ∨ Holds tree.current)
    (resolved : tree.resolve path = .ok location) : Holds location := by
  refine invariant.walk ?_ path.slashless_of_mem_pieces (resolve_eq_ok_iff.mp resolved).2
  unfold startOf
  split
  · exact invariant.root
  · rename_i isRelative
    exact start.resolve_left isRelative

/-- Lookups end on names, if the current directory has some. -/
theorem names_of_resolve (start : path.isAbsolute = true ∨ ∀ name ∈ tree.current, IsFileName name)
    (resolved : tree.resolve path = .ok location) : ∀ name ∈ location, IsFileName name := by
  have invariant : WalkInvariant tree fun place => ∀ name ∈ place, IsFileName name := {
    root := fun _ none => absurd none List.not_mem_nil
    up := fun names _ name mem => names name (List.dropLast_subset _ mem)
    down := fun names _ fits _ _ =>
      List.forall_mem_append.mpr ⟨names, List.forall_mem_singleton.mpr fits⟩ }
  exact invariant.resolve start resolved

/-- An entry that is no link, in a directory in a directory and so on from the root down. -/
structure Standing (tree : FileTree) (location : Location) : Prop where
  names : ∀ name ∈ location, IsFileName name
  above : ∀ front name after, location = front ++ name :: after →
    tree.get? front = some .directory
  entry : ∃ entry, tree.get? location = some entry ∧ ∀ target, entry ≠ .link target

theorem standing_invariant (tree : FileTree) : WalkInvariant tree tree.Standing where
  root := {
    names := fun _ none => absurd none List.not_mem_nil
    above := by simp
    entry := ⟨.directory, rfl, by simp⟩ }
  up {place} standing directory := by
    rcases List.eq_nil_or_concat place with rfl | ⟨front, name, rfl⟩
    · exact standing
    · rw [List.concat_eq_append] at *
      rw [List.dropLast_concat]
      exact {
        names := fun name mem => standing.names name (List.mem_append_left _ mem)
        above := by
          rintro before next after rfl
          exact standing.above before next (after ++ [name]) (by simp)
        entry := ⟨.directory, standing.above front name [] rfl, by simp⟩ }
  down {place name entry} standing directory fits found notLink := {
    names := List.forall_mem_append.mpr ⟨standing.names, List.forall_mem_singleton.mpr fits⟩
    above := by
      intro front next after same
      rcases List.eq_nil_or_concat after with rfl | ⟨between, last, rfl⟩
      · obtain ⟨rfl, _⟩ := List.append_inj' same rfl
        exact directory
      · have shorter : place = front ++ next :: between := by
          have cut := congrArg List.dropLast same
          rw [List.dropLast_concat, List.concat_eq_append, ← List.cons_append,
            ← List.append_assoc, List.dropLast_concat] at cut
          exact cut
        exact standing.above front next between shorter
    entry := ⟨entry, found, notLink⟩ }

/-- An absolute path leads to a standing location only. -/
theorem standing_of_resolve (absolute : path.isAbsolute = true)
    (resolved : tree.resolve path = .ok location) : tree.Standing location :=
  (standing_invariant tree).resolve (.inl absolute) resolved

theorem find_eq_ok_iff {entry : Entry} : tree.find path = .ok entry ↔
    ∃ location, tree.resolve path = .ok location ∧ tree.get? location = some entry := by
  constructor
  · intro found
    obtain ⟨location, resolved, found⟩ := exists_of_bind_eq_ok found
    refine ⟨location, resolved, ?_⟩
    split at found
    · rename_i stands
      rw [stands, Except.ok.inj found]
    · cases found
  · rintro ⟨location, resolved, stands⟩
    rw [find, resolved, ok_bind, stands]
    rfl

theorem isFile_iff : tree.isFile path = true ↔ ∃ content, tree.find path = .ok (.file content) := by
  unfold isFile
  split
  · rename_i content found
    exact iff_of_true rfl ⟨content, found⟩
  · rename_i notFile
    exact iff_of_false Bool.false_ne_true fun ⟨content, found⟩ => notFile content found

theorem isDirectory_iff : tree.isDirectory path = true ↔ tree.find path = .ok .directory := by
  unfold isDirectory
  split
  · rename_i found
    exact iff_of_true rfl found
  · rename_i notDirectory
    exact iff_of_false Bool.false_ne_true notDirectory

theorem readBytes_eq_ok_iff {content : ByteArray} :
    tree.readBytes path = .ok content ↔ tree.find path = .ok (.file content) := by
  constructor
  · intro read
    obtain ⟨entry, found, read⟩ := exists_of_bind_eq_ok read
    split at read
    · rwa [Except.ok.inj read] at found
    · cases read
  · intro found
    rw [readBytes, found, ok_bind]
    rfl

theorem readText_eq_ok {text : Text} : tree.readText path = .ok text ↔
    ∃ location content, tree.resolve path = .ok location ∧
      tree.get? location = some (.file content) ∧
        String.fromUTF8? content = some (String.ofList text) := by
  constructor
  · intro read
    obtain ⟨content, found, read⟩ := exists_of_bind_eq_ok read
    obtain ⟨location, resolved, stands⟩ := find_eq_ok_iff.mp (readBytes_eq_ok_iff.mp found)
    refine ⟨location, content, resolved, stands, ?_⟩
    split at read
    · rename_i decoded
      rw [decoded, ← Except.ok.inj read, String.ofList_toList]
    · cases read
  · rintro ⟨location, content, resolved, stands, decoded⟩
    have found := readBytes_eq_ok_iff.mpr (find_eq_ok_iff.mpr ⟨location, resolved, stands⟩)
    rw [readText, found, ok_bind, decoded]
    exact congrArg Except.ok String.toList_ofList

theorem isFile_of_readText {text : Text} (read : tree.readText path = .ok text) :
    tree.isFile path = true := by
  obtain ⟨location, content, resolved, stands, -⟩ := readText_eq_ok.mp read
  exact isFile_iff.mpr ⟨content, find_eq_ok_iff.mpr ⟨location, resolved, stands⟩⟩

/-- No walk goes on through a file. -/
theorem not_walk_through_file {follow : Location → List OsText → Except SystemError Location}
    {names : Location} {step : Component} {steps : List Component} {content : ByteArray}
    (standing : tree.Standing (place ++ names))
    (isFile : tree.get? (place ++ names) = some (.file content))
    (goes : pieces.filterMap Component.ofPiece? = names.map .name ++ step :: steps) :
    tree.walkPieces true follow place pieces ≠ .ok result := by
  induction pieces generalizing place names with
  | nil => simp at goes
  | cons piece rest ih =>
    intro ends
    obtain ⟨directory, passes⟩ := walkPieces_cons_eq_ok_iff.mp ends
    cases names with
    | nil => simp [directory] at isFile
    | cons name names =>
      cases passes with
      | idle stands ends =>
        rw [List.filterMap_cons_none stands] at goes
        exact ih standing isFile goes ends
      | up stands ends =>
        rw [List.filterMap_cons_some stands] at goes
        cases goes
      | enter stands short found notLink ends =>
        rw [List.filterMap_cons_some stands] at goes
        obtain ⟨same, onward⟩ := List.cons.inj goes
        obtain rfl := Component.name.inj same
        rw [List.append_cons] at standing isFile
        exact ih standing isFile onward ends
      | stop stands short found last ends => simp at last
      | follow stands short found goesOn ends =>
        rw [List.filterMap_cons_some stands] at goes
        obtain ⟨same, onward⟩ := List.cons.inj goes
        obtain rfl := Component.name.inj same
        cases names with
        | nil => simp [found] at isFile
        | cons next names => simp [standing.above _ next names (List.append_cons ..)] at found

/-- There is no file below a file. -/
theorem isFile_below_file {last : OsText} {content : ByteArray} (standing : tree.Standing location)
    (isFile : tree.get? location = some (.file content))
    (names : ∀ name ∈ location ++ [last], IsFileName name) :
    tree.isFile (pathOf (location ++ [last])) = false := by
  have pieces : (pathOf (location ++ [last])).parts.pieces = location ++ [last] :=
    congrArg Path.Parts.pieces (Path.parts_ofParts (proper_location names) (by simp))
  have goes : (location ++ [last]).filterMap Component.ofPiece? =
      location.map .name ++ .name last :: [] := by
    rw [filterMap_names names, List.map_append]
    rfl
  rw [Bool.eq_false_iff, ne_eq, isFile_iff]
  rintro ⟨_, found⟩
  obtain ⟨result, resolved, -⟩ := find_eq_ok_iff.mp found
  have walked := (resolve_eq_ok_iff.mp resolved).2
  rw [pieces] at walked
  rw [← List.nil_append location] at standing isFile
  exact not_walk_through_file standing isFile goes walked

end Hyperlisting.FileTree
