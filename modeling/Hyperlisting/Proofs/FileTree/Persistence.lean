import Hyperlisting.Proofs.FileTree.Plain

/-! Ways that stay. A lookup that ends in a directory passes directories and links only, so it ends
there in any tree that has kept these, whatever has become of the files. A path has a slot exactly
when the pieces before its last name lead to a directory, and it leads to what is in the slot. -/

namespace Hyperlisting.FileTree

variable {tree after : FileTree} {place location result : Location} {pieces : List OsText}
  {path : Path} {slot : Slot} {followLast : Bool}

/-- Every directory and every link is still there. -/
structure KeepsWays (tree after : FileTree) : Prop where
  current : after.current = tree.current
  entry {place : Location} {entry : Entry} : tree.get? place = some entry →
    (∀ content, entry ≠ .file content) → after.get? place = some entry

theorem KeepsWays.directory (keeps : tree.KeepsWays after)
    (directory : tree.get? place = some .directory) : after.get? place = some .directory :=
  keeps.entry directory (by simp)

theorem keepsWays_put (absent : tree.get? location = none) (entry : Entry) :
    tree.KeepsWays (tree.put location entry) where
  current := rfl
  entry stands _ := get?_put_of_absent absent stands

theorem KeepsWays.walkPieces
    {follow follow' : Location → List OsText → Except SystemError Location}
    (keeps : tree.KeepsWays after)
    (follows : ∀ place pieces, follow place pieces = .ok result →
      follow' place pieces = .ok result)
    (directory : tree.get? result = some .directory)
    (ends : tree.walkPieces followLast follow place pieces = .ok result) :
    after.walkPieces followLast follow' place pieces = .ok result := by
  induction pieces generalizing place with
  | nil => exact ends
  | cons piece rest ih =>
    obtain ⟨here, passes⟩ := walkPieces_cons_eq_ok_iff.mp ends
    refine walkPieces_cons_eq_ok_iff.mpr ⟨keeps.directory here, ?_⟩
    cases passes with
    | idle stands ends => exact .idle stands (ih ends)
    | up stands ends => exact .up stands (ih ends)
    | @enter entry stands short found notLink ends =>
      cases entry with
      | directory => exact .enter stands short (keeps.directory found) (by simp) (ih ends)
      | file content =>
        -- a way that ends in a directory passes no file
        rw [walkPieces_of_file found] at ends
        split at ends
        · obtain rfl := Except.ok.inj ends
          cases found.symm.trans directory
        · cases ends
      | link target => exact absurd rfl (notLink target)
    | stop stands short found last ends =>
      exact .stop stands short (keeps.entry found (by simp)) last ends
    | follow stands short found goesOn ends =>
      exact .follow stands short (keeps.entry found (by simp)) goesOn (follows _ _ ends)

theorem KeepsWays.walk {links : Nat} (keeps : tree.KeepsWays after)
    (directory : tree.get? result = some .directory)
    (ends : tree.walk followLast links place pieces = .ok result) :
    after.walk followLast links place pieces = .ok result := by
  induction links generalizing place pieces with
  | zero =>
    refine keeps.walkPieces ?_ directory ends
    intro place pieces none
    cases none
  | succ links ih => exact keeps.walkPieces (fun _ _ ends => ih ends) directory ends

/-- A path leads to the directory that it led to. -/
theorem KeepsWays.resolve (keeps : tree.KeepsWays after)
    (directory : tree.get? location = some .directory) (resolved : tree.resolve path = .ok location) :
    after.resolve path = .ok location := by
  obtain ⟨accepted, ends⟩ := resolve_eq_ok_iff.mp resolved
  rw [resolve_of_accepted accepted, keeps.current]
  exact keeps.walk directory ends

theorem walkPieces_append {links : Nat}
    {follow : Location → List OsText → Except SystemError Location}
    (own : tree.walkPieces true follow = tree.walk true links)
    (follows : ∀ place front, ∃ fewer, ∀ rest, follow place (front ++ rest) =
      follow place front >>= fun middle => tree.walk true fewer middle rest)
    (place : Location) (front : List OsText) :
    ∃ fewer, ∀ rest, tree.walkPieces true follow place (front ++ rest) =
      tree.walkPieces true follow place front >>= fun middle => tree.walk true fewer middle rest := by
  induction front generalizing place with
  | nil => exact ⟨links, fun rest => congrFun (congrFun own place) rest⟩
  | cons piece front ih =>
    simp only [List.cons_append, walkPieces]
    cases tree.get? place with
    | none => exact ⟨0, fun _ => rfl⟩
    | some here =>
      cases here with
      | file content => exact ⟨0, fun _ => rfl⟩
      | link target => exact ⟨0, fun _ => rfl⟩
      | directory =>
        cases stands : Path.Component.ofPiece? piece with
        | none => exact ih place
        | some step =>
          rcases Path.ofPiece?_cases stands with rfl | ⟨name, rfl⟩
          · exact ih place.dropLast
          · dsimp only
            split
            · exact ⟨0, fun _ => rfl⟩
            · cases tree.get? (place ++ [name]) with
              | none => exact ⟨0, fun _ => rfl⟩
              | some entry =>
                cases entry with
                | directory => exact ih (place ++ [name])
                | file content => exact ih (place ++ [name])
                | link target =>
                  simp only [Bool.not_true, Bool.and_false, Bool.false_eq_true, if_false]
                  simp only [← List.append_assoc]
                  exact follows _ _

/-- A lookup along two parts goes on from where the first part ends, and may follow fewer links
there. -/
theorem walk_append (tree : FileTree) (links : Nat) (place : Location) (front : List OsText) :
    ∃ fewer, ∀ rest, tree.walk true links place (front ++ rest) =
      tree.walk true links place front >>= fun middle => tree.walk true fewer middle rest := by
  induction links generalizing place front with
  | zero =>
    have own : tree.walkPieces true (fun _ _ => .error .tooManyLinks) = tree.walk true 0 := rfl
    exact walkPieces_append own (fun _ _ => ⟨0, fun _ => rfl⟩) place front
  | succ links ih =>
    have own : tree.walkPieces true (tree.walk true links) = tree.walk true (links + 1) := rfl
    exact walkPieces_append own ih place front

/-- Nothing but a name in a directory, or the directory itself, lies on a way that goes on. -/
theorem directory_of_walk {links : Nat} {piece : OsText}
    (ends : tree.walk followLast links place (piece :: pieces) = .ok result) :
    tree.get? place = some .directory := by
  cases links with
  | zero => exact (walkPieces_cons_eq_ok_iff.mp ends).1
  | succ links => exact (walkPieces_cons_eq_ok_iff.mp ends).1

theorem walk_name {links : Nat} {name : OsText} {entry : Entry}
    (directory : tree.get? place = some .directory) (fits : Path.IsFileName name)
    (short : name.length ≤ nameLimit) (stands : tree.get? (place ++ [name]) = some entry)
    (notLink : ∀ target, entry ≠ .link target) :
    tree.walk followLast links place (name :: pieces) =
      tree.walk followLast links (place ++ [name]) pieces := by
  cases links <;>
  · rw [walk, walkPieces, directory, fits.ofPiece]
    dsimp only
    rw [if_neg (Nat.not_lt.mpr short), stands]
    cases entry with
    | link target => exact absurd rfl (notLink target)
    | directory => rfl
    | file content => rfl

/-- Separators lead nowhere. -/
theorem walk_idle {links : Nat} (directory : tree.get? place = some .directory)
    (idle : ∀ piece ∈ pieces, piece = []) :
    tree.walk followLast links place pieces = .ok place := by
  induction pieces with
  | nil => cases links <;> rfl
  | cons piece rest ih =>
    obtain ⟨rfl, restIdle⟩ := List.forall_mem_cons.mp idle
    rw [← ih restIdle]
    cases links <;> rw [walk, walkPieces, directory] <;> rfl

/-- The pieces of a path without the separators after the last one. -/
def keptPieces (path : Path) : List OsText :=
  (path.parts.pieces.reverse.dropWhile List.isEmpty).reverse

theorem pieces_eq_kept_append (path : Path) :
    ∃ idle, path.parts.pieces = keptPieces path ++ idle ∧ ∀ piece ∈ idle, piece = [] := by
  refine ⟨(path.parts.pieces.reverse.takeWhile List.isEmpty).reverse, ?_, ?_⟩
  · rw [keptPieces, ← List.reverse_append, List.takeWhile_append_dropWhile, List.reverse_reverse]
  · intro piece mem
    exact List.isEmpty_iff.mp (List.mem_takeWhile_imp (List.mem_reverse.mp mem))

theorem slot?_eq_some_iff : tree.slot? path = .ok (some slot) ↔
    refuse path = .ok () ∧
      tree.walk true linkLimit (startOf tree.current path) (keptPieces path).dropLast =
        .ok slot.directory ∧
      tree.get? slot.directory = some .directory ∧
      (keptPieces path).getLast?.bind Path.Component.ofPiece? = some (.name slot.name) ∧
      slot.name.length ≤ nameLimit ∧
      slot.asDirectory = decide ((keptPieces path).length < path.parts.pieces.length) := by
  unfold slot? keptPieces
  constructor
  · intro found
    obtain ⟨_, accepted, found⟩ := exists_of_bind_eq_ok found
    obtain ⟨directory, walked, found⟩ := exists_of_bind_eq_ok found
    cases stands : tree.hasDirectory directory with
    | false =>
      rw [stands] at found
      cases found
    | true =>
      rw [stands] at found
      split at found
      · rename_i name last
        by_cases long : nameLimit < name.length
        · simp [long, throw, throwThe, MonadExceptOf.throw, bind, Except.bind] at found
        · simp only [long, pure, Except.pure, Bool.not_true, Bool.false_eq_true, if_false,
            Except.ok.injEq, Option.some.injEq] at found
          subst found
          exact ⟨accepted, walked, hasDirectory_iff.mp stands, last, Nat.not_lt.mp long, rfl⟩
      · cases found
  · obtain ⟨directory, name, asDirectory⟩ := slot
    rintro ⟨accepted, walked, stands, last, short, rfl⟩
    dsimp only at walked stands last short ⊢
    rw [accepted, ok_bind, walked, ok_bind, hasDirectory_iff.mpr stands, last]
    simp [Nat.not_lt.mpr short, pure, Except.pure]

/-- A slot is where the last name of a path leads, in the directory to which the pieces before it
lead; only separators follow the name. -/
theorem slot?_some (found : tree.slot? path = .ok (some slot)) :
    refuse path = .ok () ∧ tree.get? slot.directory = some .directory ∧
      slot.name.length ≤ nameLimit ∧ Path.IsFileName slot.name ∧
      ∃ front idle, path.parts.pieces = front ++ slot.name :: idle ∧ (∀ piece ∈ idle, piece = []) ∧
        (slot.asDirectory = false → idle = []) ∧
        tree.walk true linkLimit (startOf tree.current path) front = .ok slot.directory := by
  obtain ⟨accepted, walked, directory, last, short, asDirectory⟩ := slot?_eq_some_iff.mp found
  obtain ⟨idle, whole, noMore⟩ := pieces_eq_kept_append path
  obtain ⟨piece, ends, isName⟩ := Option.bind_eq_some_iff.mp last
  obtain rfl := Path.ofPiece?_eq_name isName
  have cut := dropLast_append_getLast? (keptPieces path)
  rw [ends] at cut
  have mem : slot.name ∈ path.parts.pieces := by rw [whole, ← cut]; simp
  refine ⟨accepted, directory, short, ⟨isName, path.slashless_of_mem_pieces _ mem⟩,
    (keptPieces path).dropLast, idle, ?_, noMore, ?_, walked⟩
  · nth_rewrite 1 [whole, ← cut]
    simp
  · intro closed
    rw [closed, whole, List.length_append] at asDirectory
    simpa using asDirectory

/-- A path puts a new entry where it put it before. -/
theorem KeepsWays.slot? (keeps : tree.KeepsWays after) (found : tree.slot? path = .ok (some slot)) :
    after.slot? path = .ok (some slot) := by
  obtain ⟨accepted, walked, directory, parts⟩ := slot?_eq_some_iff.mp found
  rw [slot?_eq_some_iff, keeps.current]
  exact ⟨accepted, keeps.walk directory walked, keeps.directory directory, parts⟩

/-- A path leads to what is in its slot. -/
theorem resolve_of_slot? {entry : Entry} (found : tree.slot? path = .ok (some slot))
    (stands : tree.get? slot.location = some entry) (notLink : ∀ target, entry ≠ .link target)
    (fits : entry = .directory ∨ slot.asDirectory = false) :
    tree.resolve path = .ok slot.location := by
  obtain ⟨accepted, directory, short, named, front, idle, pieces, noMore, closed, walked⟩ :=
    slot?_some found
  obtain ⟨fewer, goesOn⟩ := walk_append tree linkLimit (startOf tree.current path) front
  rw [resolve_of_accepted accepted, pieces, goesOn, walked, ok_bind,
    walk_name directory named short stands notLink]
  rcases fits with rfl | isClosed
  · exact walk_idle stands noMore
  · rw [closed isClosed]
    cases fewer <;> rfl

/-- A path that leads anywhere leads there by way of a slot, if it has one in some tree. -/
theorem exists_slot?_of_resolve (found : after.slot? path = .ok (some slot))
    (closed : slot.asDirectory = false) (resolved : tree.resolve path = .ok location) :
    ∃ directory, tree.slot? path = .ok (some { slot with directory := directory }) := by
  obtain ⟨accepted, -, -, last, short, asDirectory⟩ := slot?_eq_some_iff.mp found
  obtain ⟨idle, whole, noMore⟩ := pieces_eq_kept_append path
  have none : idle = [] := by
    rw [closed, whole, List.length_append] at asDirectory
    simpa using asDirectory
  obtain ⟨piece, ends, -⟩ := Option.bind_eq_some_iff.mp last
  have cut := dropLast_append_getLast? (keptPieces path)
  rw [ends] at cut
  have walked := (resolve_eq_ok_iff.mp resolved).2
  obtain ⟨fewer, goesOn⟩ :=
    walk_append tree linkLimit (startOf tree.current path) (keptPieces path).dropLast
  rw [whole, none, List.append_nil, ← cut, Option.toList_some] at walked
  rw [goesOn] at walked
  obtain ⟨directory, reached, walked⟩ := exists_of_bind_eq_ok walked
  exact ⟨directory, slot?_eq_some_iff.mpr
    ⟨accepted, reached, directory_of_walk walked, last, short, asDirectory⟩⟩

end Hyperlisting.FileTree
