import Hyperlisting.Proofs.FileTree.Route

/-! Where a path puts a new entry in a tree that has grown out of another one: how finding the slot
can end, told from the other tree. -/

namespace Hyperlisting.FileTree

variable {tree origin : FileTree} {place location : Location} {places : List Location}
  {steps front : List Path.Component} {pieces : List OsText} {path : Path}

/-- A tree has grown out of another one, and at some places without links by directories only. -/
structure Outgrown (origin tree : FileTree) (places : List Location) : Prop where
  sound : tree.Sound
  current : tree.current = origin.current
  grown : Grown origin tree places
  unlinked : Unlinked origin places

theorem Outgrown.mono {fewer : List Location} (outgrown : Outgrown origin tree places)
    (subset : fewer ⊆ places) : Outgrown origin tree fewer where
  sound := outgrown.sound
  current := outgrown.current
  grown := fun place mem => outgrown.grown place (subset mem)
  unlinked := fun place mem => outgrown.unlinked place (subset mem)

theorem Outgrown.startOfPath_eq (outgrown : Outgrown origin tree places) (path : Path) :
    tree.startOfPath path = origin.startOfPath path := by
  rw [startOfPath, startOfPath, outgrown.current]

theorem Outgrown.start (outgrown : Outgrown origin tree places) (path : Path) :
    tree.get? (origin.startOfPath path) = some .directory :=
  outgrown.startOfPath_eq path ▸ outgrown.sound.startOfPath path

theorem Outgrown.walked {followLast : Bool}
    (outgrown : Outgrown origin tree (passed (origin.startOfPath path) front))
    (goes : pieces.filterMap Path.Component.ofPiece? = front) :
    Walked origin tree (origin.startOfPath path) front
      (tree.walk followLast linkLimit (startOf tree.current path) pieces) := by
  have start : startOf tree.current path = origin.startOfPath path := outgrown.startOfPath_eq path
  rw [start]
  exact walked_walkPieces outgrown.sound outgrown.grown outgrown.unlinked goes (outgrown.start path)

theorem Outgrown.walked_resolve (outgrown : Outgrown origin tree (origin.route path))
    (accepted : refuse path = .ok ()) :
    Walked origin tree (origin.startOfPath path) path.steps (tree.resolve path) := by
  rw [resolve_of_accepted accepted]
  exact outgrown.walked rfl

theorem Outgrown.directory_of_paved
    (outgrown : Outgrown origin tree (passed (origin.startOfPath path) front))
    (paved : Paved origin tree (origin.startOfPath path) front) :
    tree.get? (land (origin.startOfPath path) front) = some .directory := by
  rcases List.eq_nil_or_concat' front with rfl | ⟨before, last, rfl⟩
  · exact outgrown.start path
  · exact paved.directory_of_mem outgrown.sound outgrown.grown (outgrown.start path)
      (land_mem_passed ..)

theorem refuse_eq_ok_iff : refuse path = .ok () ↔
    0 ∉ path.bytes ∧ path.bytes ≠ [] ∧ path.bytes.length < pathLimit := by
  simp only [refuse, List.contains_iff_mem, List.isEmpty_iff]
  split
  · simp_all
  · split
    · simp_all
    · split
      · simp_all
      · simp_all

theorem refuse_of_isPrefix {shorter : Path} (accepted : refuse path = .ok ())
    (isPrefix : shorter.bytes <+: path.bytes) (nonempty : shorter.bytes ≠ []) :
    refuse shorter = .ok () := by
  obtain ⟨noZero, -, short⟩ := refuse_eq_ok_iff.mp accepted
  obtain ⟨after, whole⟩ := isPrefix
  rw [← whole] at noZero short
  refine refuse_eq_ok_iff.mpr ⟨fun mem => noZero (List.mem_append_left _ mem), nonempty, ?_⟩
  rw [List.length_append] at short
  omega

/-- The last piece of the path, if it has one, stands for a step. -/
def Tidy (path : Path) : Prop :=
  ∀ piece, path.parts.pieces.getLast? = some piece → ∃ step, Path.Component.ofPiece? piece = some step

theorem Tidy.pieces_cases (tidy : Tidy path) :
    path.parts.pieces = [] ∧ path.steps = [] ∨
      ∃ pieces piece step, path.parts.pieces = pieces ++ [piece] ∧
        Path.Component.ofPiece? piece = some step ∧
        path.steps = pieces.filterMap Path.Component.ofPiece? ++ [step] := by
  rcases List.eq_nil_or_concat' path.parts.pieces with none | ⟨pieces, piece, whole⟩
  · exact .inl ⟨none, by rw [Path.steps, none]; rfl⟩
  · obtain ⟨step, stands⟩ := tidy piece (by rw [whole, List.getLast?_concat])
    exact .inr ⟨pieces, piece, step, whole, stands, by simp [Path.steps, whole, stands]⟩

/-- Parents are written without what stands for no step, unless they are the root or empty. -/
theorem tidy_parent? {parent : Path} (above : path.parent? = some parent)
    (further : parent.parent?.isSome = true) : Tidy parent := by
  rcases Path.parent?_cases above with ⟨-, -, rfl⟩ | ⟨-, proper, rfl⟩
  · cases further
  · generalize kept : Path.trimEnd (Path.trimEnd path.parts.pieces).dropLast = front at proper further
    intro piece last
    by_cases none : front = []
    · subst none
      have start : path.parts.start = some .current := by
        have starts := Path.parent?_isSome_iff.mp further
        rw [Path.steps_ofParts proper, Path.start_ofParts proper] at starts
        exact starts.resolve_left (by simp)
      rw [start] at last
      cases last
    · rw [Path.parts_ofParts proper none, ← kept] at last
      simpa [Path.isIdle, Option.isSome_iff_exists, Option.ne_none_iff_exists'] using
        Path.isIdle_eq_false last

theorem dropLast_append_getLast? {α : Type} (list : List α) :
    list.dropLast ++ list.getLast?.toList = list := by
  rcases List.eq_nil_or_concat' list with rfl | ⟨front, last, rfl⟩
  · rfl
  · simp

theorem destination_eq {last : OsText} (named : path.steps.getLast? = some (.name last))
    (origin : FileTree) :
    origin.destination path = land (origin.startOfPath path) path.steps.dropLast ++ [last] := by
  have whole := dropLast_append_getLast? path.steps
  rw [named] at whole
  rw [destination, ← whole, land_append]
  simp [onward]

/-- A slot in a directory, for what a path ends in. -/
def slotIn (tree : FileTree) (directory : Location) :
    Option Path.Component → Except SystemError (Option Slot)
  | some (.name name) =>
    if !tree.hasDirectory directory then .error .notDirectory
    else if nameLimit < name.length then .error .nameTooLong
    else .ok (some ⟨directory, name, false⟩)
  | _ => if !tree.hasDirectory directory then .error .notDirectory else .ok none

/-- The slot of a path that ends in a step is found by the steps before it and that step alone. -/
theorem slot?_eq (tidy : Tidy path) (accepted : refuse path = .ok ()) (tree : FileTree) :
    ∃ pieces, pieces.filterMap Path.Component.ofPiece? = path.steps.dropLast ∧
      tree.slot? path = (do
        let directory ← tree.walk true linkLimit (startOf tree.current path) pieces
        tree.slotIn directory path.steps.getLast?) := by
  rcases tidy.pieces_cases with ⟨none, noSteps⟩ | ⟨pieces, piece, step, whole, stands, steps⟩
  · refine ⟨[], by rw [noSteps]; rfl, ?_⟩
    rw [slot?, none, noSteps, accepted]
    rfl
  · refine ⟨pieces, by rw [steps, List.dropLast_concat], ?_⟩
    have nonempty : piece.isEmpty = false := by
      cases piece with
      | nil => cases stands
      | cons c piece => rfl
    have kept : ((pieces ++ [piece]).reverse.dropWhile List.isEmpty).reverse = pieces ++ [piece] := by
      rw [List.reverse_concat, List.dropWhile_cons_of_neg (by simp [nonempty])]
      simp
    rw [slot?, whole, accepted]
    dsimp only
    rw [kept, steps, List.dropLast_concat, List.getLast?_concat, List.getLast?_concat]
    simp only [Option.bind_some, stands, Nat.lt_irrefl, decide_false]
    change (tree.walk true linkLimit (startOf tree.current path) pieces >>= _) = _
    congr 1
    funext directory
    cases step with
    | name name =>
      rw [slotIn]
      cases tree.hasDirectory directory with
      | false => rfl
      | true =>
        by_cases long : nameLimit < name.length
        · simp [long, throw, throwThe, MonadExceptOf.throw, bind, Except.bind]
        · simp [long, pure, Except.pure]
    | root | current | parent =>
      rw [slotIn]
      · cases tree.hasDirectory directory <;> rfl
      · simp

/-- How finding the slot of a path can end. -/
inductive Slotting (origin tree : FileTree) (path : Path) : Except SystemError (Option Slot) → Prop
  | missing : ¬ Paved origin tree (origin.startOfPath path) path.steps.dropLast →
      Slotting origin tree path (.error .notFound)
  | blocked {cause : SystemError} : cause ≠ .notFound → cause ≠ .alreadyExists →
      Blocked origin tree (origin.startOfPath path) path.steps.dropLast →
      Slotting origin tree path (.error cause)
  | tooLong {name : OsText} : Paved origin tree (origin.startOfPath path) path.steps.dropLast →
      path.steps = path.steps.dropLast ++ [.name name] → nameLimit < name.length →
      Slotting origin tree path (.error .nameTooLong)
  | noName : Paved origin tree (origin.startOfPath path) path.steps.dropLast →
      (∀ name, path.steps.getLast? ≠ some (.name name)) → Slotting origin tree path (.ok none)
  | named {name : OsText} : Paved origin tree (origin.startOfPath path) path.steps.dropLast →
      path.steps = path.steps.dropLast ++ [.name name] → name.length ≤ nameLimit →
      Slotting origin tree path
        (.ok (some ⟨land (origin.startOfPath path) path.steps.dropLast, name, false⟩))

theorem slotting (tidy : Tidy path) (accepted : refuse path = .ok ())
    (outgrown : Outgrown origin tree (passed (origin.startOfPath path) path.steps.dropLast)) :
    Slotting origin tree path (tree.slot? path) := by
  obtain ⟨pieces, goes, slot⟩ := slot?_eq tidy accepted tree
  have walked : Walked origin tree (origin.startOfPath path) path.steps.dropLast
      (tree.walk true linkLimit (startOf tree.current path) pieces) := outgrown.walked goes
  have whole := dropLast_append_getLast? path.steps
  rw [slot]
  cases outcome : tree.walk true linkLimit (startOf tree.current path) pieces with
  | error cause =>
    rw [outcome] at walked
    by_cases missing : cause = .notFound
    · subst missing
      exact .missing fun paved => walked paved.built
    · obtain ⟨notExists, blocked⟩ : cause ≠ .alreadyExists ∧ Blocked origin tree _ _ := by
        cases cause with
        | notFound => exact absurd rfl missing
        | _ => exact walked
      exact .blocked missing notExists blocked
  | ok result =>
    rw [outcome] at walked
    obtain ⟨rfl, _, built, isClear⟩ := walked
    change Slotting origin tree path (tree.slotIn _ path.steps.getLast?)
    cases directory : tree.hasDirectory (land (origin.startOfPath path) path.steps.dropLast) with
    | false =>
      have notClear : origin.clear (origin.startOfPath path) path.steps.dropLast = false := by
        rw [Bool.eq_false_iff, ne_eq, ← isClear, ← hasDirectory_iff, directory]
        simp
      have refused : tree.slotIn (land (origin.startOfPath path) path.steps.dropLast)
          path.steps.getLast? = .error .notDirectory := by
        unfold slotIn
        split <;> simp [directory]
      rw [refused]
      exact .blocked (by simp) (by simp) ⟨notClear, built⟩
    | true =>
      have paved : Paved origin tree (origin.startOfPath path) path.steps.dropLast :=
        ⟨isClear.mp (hasDirectory_iff.mp directory), built⟩
      unfold slotIn
      split
      · rename_i name last
        rw [last] at whole
        rw [directory, if_neg (by simp)]
        split
        · rename_i long
          exact .tooLong paved whole.symm long
        · rename_i short
          exact .named paved whole.symm (Nat.not_lt.mp short)
      · rename_i notName
        rw [directory, if_neg (by simp)]
        exact .noName paved notName

end Hyperlisting.FileTree
