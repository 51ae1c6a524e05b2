import Hyperlisting.FileTree.Change
import Hyperlisting.Proofs.FileTree.Walk

/-! The way of a path, read off its steps alone: the places that it passes, and what of a tree stands
in the way. In a tree that has grown out of another by directories, a lookup on a way without links
gets through exactly when nothing stood in the way and all that was missing has been made. -/

namespace Hyperlisting.FileTree

variable {tree origin : FileTree} {place location : Location} {steps front rest : List Path.Component}
  {pieces : List OsText} {path : Path}

/-- The place to which a step leads. -/
def onward (place : Location) : Path.Component → Location
  | .name name => place ++ [name]
  | _ => place.dropLast

/-- The places to which some steps lead, one after the other. -/
def passed (place : Location) : List Path.Component → List Location
  | [] => []
  | step :: steps => onward place step :: passed (onward place step) steps

/-- The place to which some steps lead in the end. -/
def land (place : Location) (steps : List Path.Component) : Location := steps.foldl onward place

@[simp] theorem land_nil (place : Location) : land place [] = place := rfl

@[simp] theorem land_cons (place : Location) (step : Path.Component) (steps : List Path.Component) :
    land place (step :: steps) = land (onward place step) steps := rfl

theorem land_append (place : Location) (front rest : List Path.Component) :
    land place (front ++ rest) = land (land place front) rest := List.foldl_append

theorem passed_append (place : Location) (front rest : List Path.Component) :
    passed place (front ++ rest) = passed place front ++ passed (land place front) rest := by
  induction front generalizing place with
  | nil => rfl
  | cons step front ih => rw [List.cons_append, passed, ih]; rfl

theorem land_mem_passed (place : Location) (front : List Path.Component) (last : Path.Component) :
    land place (front ++ [last]) ∈ passed place (front ++ [last]) := by
  rw [passed_append, land_append]
  exact List.mem_append_right _ List.mem_cons_self

/-- Where the steps of a path start. -/
def startOfPath (tree : FileTree) (path : Path) : Location := startOf tree.current path

theorem startOfPath_congr {other : Path} (same : path.isAbsolute = other.isAbsolute)
    (tree : FileTree) : tree.startOfPath path = tree.startOfPath other := by
  rw [startOfPath, startOfPath, startOf, startOf, same]

/-- The places that a path passes, where it ends included. -/
def route (tree : FileTree) (path : Path) : List Location :=
  passed (startOfPath tree path) path.steps

/-- The place where a path ends. -/
def destination (tree : FileTree) (path : Path) : Location :=
  land (startOfPath tree path) path.steps

/-- The step can be gone, or can be once a directory is made. -/
def isFree (tree : FileTree) (place : Location) : Path.Component → Bool
  | .name name => name.length ≤ nameLimit &&
    match tree.get? (place ++ [name]) with
    | none | some .directory => true
    | some _ => false
  | _ => true

/-- Nothing stands in the way. -/
def clear (tree : FileTree) (place : Location) : List Path.Component → Bool
  | [] => true
  | step :: steps => isFree tree place step && clear tree (onward place step) steps

/-- The missing directories on the way, up to the first step that something stands in the way
of. -/
def missing (tree : FileTree) (place : Location) : List Path.Component → List Location
  | [] => []
  | step :: steps =>
    if isFree tree place step then
      (if (tree.get? (onward place step)).isNone then [onward place step] else []) ++
        missing tree (onward place step) steps
    else []

theorem clear_append (tree : FileTree) (place : Location) (front rest : List Path.Component) :
    clear tree place (front ++ rest) =
      (clear tree place front && clear tree (land place front) rest) := by
  induction front generalizing place with
  | nil => simp [clear]
  | cons step front ih => simp [clear, ih, Bool.and_assoc]

theorem missing_append (tree : FileTree) (place : Location) (front rest : List Path.Component) :
    missing tree place (front ++ rest) = missing tree place front ++
      if clear tree place front then missing tree (land place front) rest else [] := by
  induction front generalizing place with
  | nil => simp [missing, clear]
  | cons step front ih =>
    rw [List.cons_append, missing, missing, clear]
    split
    · rename_i free
      rw [ih, free, Bool.true_and, List.append_assoc]
      rfl
    · rename_i blocked
      simp [blocked]

theorem missing_subset_passed (tree : FileTree) (place : Location)
    (steps : List Path.Component) : missing tree place steps ⊆ passed place steps := by
  induction steps generalizing place with
  | nil => exact List.Subset.refl _
  | cons step steps ih =>
    intro location mem
    rw [missing] at mem
    split at mem
    · rcases List.mem_append.mp mem with here | later
      · split at here
        · exact List.mem_singleton.mp here ▸ List.mem_cons_self
        · cases here
      · exact List.mem_cons_of_mem _ (ih _ later)
    · cases mem

theorem get?_of_mem_missing (mem : location ∈ missing tree place steps) :
    tree.get? location = none := by
  induction steps generalizing place with
  | nil => cases mem
  | cons step steps ih =>
    rw [missing] at mem
    split at mem
    · rcases List.mem_append.mp mem with here | later
      · split at here
        · rename_i absent
          rw [List.mem_singleton.mp here]
          exact Option.isNone_iff_eq_none.mp absent
        · cases here
      · exact ih later
    · cases mem

theorem hasDirectory_iff : tree.hasDirectory location = true ↔
    tree.get? location = some .directory := by
  rw [hasDirectory, Option.any_eq_true]
  constructor
  · rintro ⟨entry, found, isDirectory⟩
    cases entry with
    | directory => exact found
    | file content => cases isDirectory
    | link target => cases isDirectory
  · exact fun found => ⟨_, found, rfl⟩

/-- Every entry is in a directory, and the current directory is one. -/
structure Sound (tree : FileTree) : Prop where
  above {place : Location} {name : OsText} :
    tree.get? (place ++ [name]) ≠ none → tree.get? place = some .directory
  current : tree.get? tree.current = some .directory

theorem sound_iff : tree.Sound ↔
    (∀ entry ∈ tree.entries.toList, tree.hasDirectory entry.1.dropLast = true) ∧
      tree.hasDirectory tree.current = true := by
  refine ⟨fun sound => ⟨fun (place, entry) mem => hasDirectory_iff.mpr ?_,
    hasDirectory_iff.mpr sound.current⟩, fun ⟨above, current⟩ => ⟨fun {place name} found => ?_,
    hasDirectory_iff.mp current⟩⟩
  · rcases List.eq_nil_or_concat' place with rfl | ⟨front, name, rfl⟩
    · rfl
    · rw [List.dropLast_concat]
      have stands : tree.get? (front ++ [name]) ≠ none := by
        simp [get?_of_mem_toList (by simp) mem]
      exact sound.above stands
  · obtain ⟨entry, stands⟩ := Option.ne_none_iff_exists'.mp found
    have directory := above _ (mem_toList_of_get? (by simp) stands)
    rw [List.dropLast_concat] at directory
    exact hasDirectory_iff.mp directory

instance : Decidable tree.Sound := decidable_of_iff' _ sound_iff

theorem Sound.directory_dropLast (sound : tree.Sound)
    (directory : tree.get? place = some .directory) :
    tree.get? place.dropLast = some .directory := by
  rcases List.eq_nil_or_concat' place with rfl | ⟨front, name, rfl⟩
  · rfl
  · rw [List.dropLast_concat]
    have found : tree.get? (front ++ [name]) ≠ none := by simp [directory]
    exact sound.above found

theorem Sound.startOfPath (sound : tree.Sound) (path : Path) :
    tree.get? (tree.startOfPath path) = some .directory := by
  unfold FileTree.startOfPath startOf
  split
  · rfl
  · exact sound.current

/-- An entry can be put into a directory, but not in place of a directory unless it is one. -/
theorem Sound.put {entry : Entry} (sound : tree.Sound) (nonempty : location ≠ [])
    (directory : tree.get? location.dropLast = some .directory)
    (fits : tree.get? location ≠ some .directory ∨ entry = .directory) :
    (tree.put location entry).Sound where
  above {place name} found := by
    have stays (stood : tree.get? place = some .directory) :
        (tree.put location entry).get? place = some .directory := by
      rw [get?_put nonempty]
      split
      · rename_i here
        rw [fits.resolve_left fun notHere => notHere (here ▸ stood)]
      · exact stood
    rw [get?_put nonempty] at found
    split at found
    · rename_i here
      rw [here, List.dropLast_concat] at directory
      exact stays directory
    · exact stays (sound.above found)
  current := by
    rw [get?_put nonempty]
    split
    · rename_i here
      rw [fits.resolve_left fun notHere => notHere (here ▸ sound.current)]
    · exact sound.current

theorem Sound.erase (sound : tree.Sound) (nonempty : location ≠ [])
    (fits : tree.get? location ≠ some .directory) : (tree.erase location).Sound where
  above {place name} found := by
    rw [get?_erase nonempty] at found ⊢
    split at found
    · exact absurd rfl found
    · have stood := sound.above found
      rw [if_neg fun (here : location = place) => fits (here ▸ stood)]
      exact stood
  current := by
    rw [get?_erase nonempty]
    change (if location = tree.current then none else tree.get? tree.current) = _
    rw [if_neg fun (here : location = tree.current) => fits (here ▸ sound.current)]
    exact sound.current

/-- At some places a tree is as it was, or has a directory where nothing was. -/
def Grown (origin tree : FileTree) (places : List Location) : Prop :=
  ∀ place ∈ places, tree.get? place = origin.get? place ∨
    origin.get? place = none ∧ tree.get? place = some .directory

theorem get?_of_grown {entry : Entry}
    (grown : tree.get? place = origin.get? place ∨
      origin.get? place = none ∧ tree.get? place = some .directory)
    (found : tree.get? place = some entry) (notDirectory : entry ≠ .directory) :
    origin.get? place = some entry := by
  rcases grown with same | ⟨_, made⟩
  · exact same.symm.trans found
  · exact absurd (Option.some.inj (found.symm.trans made)) notDirectory

/-- What was missing on a way has been made. -/
def Built (origin tree : FileTree) (place : Location) (steps : List Path.Component) : Prop :=
  ∀ location ∈ missing origin place steps, tree.get? location = some .directory

/-- The way is there, in directories all along. -/
structure Paved (origin tree : FileTree) (place : Location) (steps : List Path.Component) : Prop where
  clear : origin.clear place steps = true
  built : Built origin tree place steps

/-- Something was in the way, and all that was missing before it has been made. -/
structure Blocked (origin tree : FileTree) (place : Location) (steps : List Path.Component) :
    Prop where
  blocked : origin.clear place steps = false
  built : Built origin tree place steps

theorem Blocked.append (blocked : Blocked origin tree place front)
    (rest : List Path.Component) : Blocked origin tree place (front ++ rest) where
  blocked := by rw [clear_append, blocked.blocked, Bool.false_and]
  built := by
    intro location mem
    rw [missing_append, if_neg (by simp [blocked.blocked]), List.append_nil] at mem
    exact blocked.built location mem

/-- No link is among some places. -/
def Unlinked (tree : FileTree) (places : List Location) : Prop :=
  ∀ place ∈ places, ∀ target, tree.get? place ≠ some (.link target)

/-- The places of links. -/
def links (tree : FileTree) : List Location :=
  tree.entries.toList.filterMap fun
    | (place, .link _) => some place
    | _ => none

theorem ne_link_of_not_mem_links (free : location ∉ tree.links) (target : Path) :
    tree.get? location ≠ some (.link target) := by
  intro found
  have nonempty : location ≠ [] := by
    rintro rfl
    cases found
  exact free (List.mem_filterMap.mpr ⟨_, mem_toList_of_get? nonempty found, rfl⟩)

theorem ne_link_of_links (none : tree.links = []) (place : Location) (target : Path) :
    tree.get? place ≠ some (.link target) :=
  ne_link_of_not_mem_links (none ▸ List.not_mem_nil) target

/-- All that a paved way passes are directories. -/
theorem Paved.directory_of_mem (paved : Paved origin tree place steps) (sound : tree.Sound)
    (grown : Grown origin tree (passed place steps))
    (start : tree.get? place = some .directory) (mem : location ∈ passed place steps) :
    tree.get? location = some .directory := by
  obtain ⟨clear, built⟩ := paved
  induction steps generalizing place with
  | nil => cases mem
  | cons step steps ih =>
    rw [FileTree.clear, Bool.and_eq_true] at clear
    obtain ⟨here, later⟩ := List.forall_mem_cons.mp grown
    unfold Built missing at built
    rw [if_pos clear.1, List.forall_mem_append] at built
    have next : tree.get? (onward place step) = some .directory := by
      rcases here with same | ⟨_, made⟩
      · cases stands : origin.get? (onward place step) with
        | none => exact built.1 _ (by simp [stands])
        | some entry =>
          cases step with
          | name name =>
            have free := clear.1
            simp only [isFree, Bool.and_eq_true] at free
            change origin.get? (place ++ [name]) = _ at stands
            rw [stands] at free
            cases entry with
            | directory => exact same.trans stands
            | file content => simp at free
            | link target => simp at free
          | root | current | parent => exact sound.directory_dropLast start
      · exact made
    rcases List.mem_cons.mp mem with rfl | mem
    · exact next
    · exact ih later next mem clear.2 built.2

/-- How a lookup on a way ends: at its end, with the way there but perhaps for the last step; for
want of something that is missing; or at what stands in the way. -/
def Walked (origin tree : FileTree) (place : Location) (steps : List Path.Component) :
    Except SystemError Location → Prop
  | .ok result => result = land place steps ∧ tree.get? result ≠ none ∧
      Built origin tree place steps ∧
      (tree.get? result = some .directory ↔ origin.clear place steps = true)
  | .error .notFound => ¬ Built origin tree place steps
  | .error cause => cause ≠ .alreadyExists ∧ Blocked origin tree place steps

theorem walked_cons {step : Path.Component} {outcome : Except SystemError Location}
    (free : origin.isFree place step = true)
    (made : tree.get? (onward place step) = some .directory)
    (walked : Walked origin tree (onward place step) steps outcome) :
    Walked origin tree place (step :: steps) outcome := by
  have clear : origin.clear place (step :: steps) = origin.clear (onward place step) steps := by
    rw [FileTree.clear, free, Bool.true_and]
  have built : Built origin tree place (step :: steps) ↔
      Built origin tree (onward place step) steps := by
    unfold Built
    rw [missing, if_pos free, List.forall_mem_append]
    refine and_iff_right fun location mem => ?_
    split at mem
    · rw [List.mem_singleton.mp mem]
      exact made
    · cases mem
  match outcome with
  | .ok result =>
    obtain ⟨lands, found, paved, ends⟩ := walked
    exact ⟨lands, found, built.mpr paved, clear ▸ ends⟩
  | .error .notFound => exact fun paved => walked (built.mp paved)
  | .error .busy | .error .alreadyExists | .error .notDirectory | .error .isDirectory
  | .error .nameTooLong | .error .tooManyLinks | .error .zeroInName | .error .notText
  | .error .noSpace =>
    obtain ⟨cause, blocked⟩ := walked
    exact ⟨cause, ⟨clear ▸ blocked.blocked, built.mpr blocked.built⟩⟩

theorem walked_of_blocked {step : Path.Component} {cause : SystemError}
    (notFree : origin.isFree place step = false) (notFound : cause ≠ .notFound)
    (notExists : cause ≠ .alreadyExists) :
    Walked origin tree place (step :: steps) (.error cause) := by
  have blocked : Blocked origin tree place (step :: steps) := {
    blocked := by rw [FileTree.clear, notFree, Bool.false_and]
    built := by
      unfold Built missing
      rw [if_neg (by simp [notFree])]
      exact fun _ none => absurd none List.not_mem_nil }
  cases cause with
  | notFound => exact absurd rfl notFound
  | _ => exact ⟨notExists, blocked⟩

theorem walked_walkPieces {followLast : Bool}
    {follow : Location → List OsText → Except SystemError Location} (sound : tree.Sound)
    (grown : Grown origin tree (passed place steps))
    (unlinked : Unlinked origin (passed place steps))
    (goes : pieces.filterMap Path.Component.ofPiece? = steps)
    (start : tree.get? place = some .directory) :
    Walked origin tree place steps (tree.walkPieces followLast follow place pieces) := by
  induction pieces generalizing place steps with
  | nil =>
    obtain rfl : [] = steps := goes
    rw [walkPieces]
    refine ⟨rfl, by simp [start], fun _ none => absurd none List.not_mem_nil, ?_⟩
    exact iff_of_true start rfl
  | cons piece rest ih =>
    rw [walkPieces, start]
    cases stands : Path.Component.ofPiece? piece with
    | none =>
      rw [List.filterMap_cons_none stands] at goes
      exact ih grown unlinked goes start
    | some step =>
      rw [List.filterMap_cons_some stands] at goes
      subst goes
      obtain ⟨here, later⟩ := List.forall_mem_cons.mp grown
      obtain ⟨notLink, laterUnlinked⟩ := List.forall_mem_cons.mp unlinked
      rcases Path.ofPiece?_cases stands with rfl | ⟨name, rfl⟩
      · have above := sound.directory_dropLast start
        exact walked_cons rfl above (ih later laterUnlinked rfl above)
      · dsimp only
        split
        · rename_i long
          have notFree : origin.isFree place (.name name) = false := by
            simp [isFree, Nat.not_le.mpr long]
          exact walked_of_blocked notFree (by simp) (by simp)
        · rename_i short
          have short : name.length ≤ nameLimit := Nat.not_lt.mp short
          have here : (tree.get? (place ++ [name]) = origin.get? (place ++ [name])) ∨
            origin.get? (place ++ [name]) = none ∧
              tree.get? (place ++ [name]) = some .directory := here
          cases found : tree.get? (place ++ [name]) with
          | none =>
            have absent := here.elim (fun same => same.symm.trans found) And.left
            intro built
            have made := built (place ++ [name]) (by simp [missing, isFree, absent, short, onward])
            rw [found] at made
            cases made
          | some entry =>
            cases entry with
            | link target => exact absurd (get?_of_grown here found (by simp)) (notLink target)
            | directory =>
              have free : origin.isFree place (.name name) = true := by
                rcases here with same | ⟨absent, _⟩
                · simp [isFree, short, ← same, found]
                · simp [isFree, short, absent]
              exact walked_cons free found (ih later laterUnlinked rfl found)
            | file content =>
              have notFree : origin.isFree place (.name name) = false := by
                simp [isFree, get?_of_grown here found (by simp)]
              cases rest with
              | nil =>
                refine ⟨rfl, by simp [found], ?_, ?_⟩
                · unfold Built missing
                  rw [if_neg (by simp [notFree])]
                  exact fun _ none => absurd none List.not_mem_nil
                · rw [found, FileTree.clear, notFree]
                  simp
              | cons next rest =>
                have stopped : tree.walkPieces followLast follow (place ++ [name]) (next :: rest) =
                    .error .notDirectory := by
                  rw [walkPieces, found]
                dsimp only
                rw [stopped]
                exact walked_of_blocked notFree (by simp) (by simp)

end Hyperlisting.FileTree
