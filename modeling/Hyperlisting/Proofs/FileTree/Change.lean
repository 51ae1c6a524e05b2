import Hyperlisting.Proofs.FileTree.Slot

/-! What the steps that write a page do to a tree that has grown out of another one: how making a
directory, making sure that it is there, and moving a page to its place can end, told from the
other tree. -/

namespace Hyperlisting.FileTree

variable {tree origin : FileTree} {place location : Location} {steps front : List Path.Component}
  {path : Path}

theorem Built.mono {after : FileTree} (built : Built origin tree place steps)
    (keeps : ∀ location ∈ passed place steps, tree.get? location = some .directory →
      after.get? location = some .directory) : Built origin after place steps :=
  fun location mem => keeps location (missing_subset_passed _ _ _ mem) (built location mem)

theorem Paved.mono {after : FileTree} (paved : Paved origin tree place steps)
    (keeps : ∀ location ∈ passed place steps, tree.get? location = some .directory →
      after.get? location = some .directory) : Paved origin after place steps where
  clear := paved.clear
  built := paved.built.mono keeps

theorem Blocked.mono {after : FileTree} (blocked : Blocked origin tree place steps)
    (keeps : ∀ location ∈ passed place steps, tree.get? location = some .directory →
      after.get? location = some .directory) : Blocked origin after place steps where
  blocked := blocked.blocked
  built := blocked.built.mono keeps

/-- A paved way goes on to what is a directory there. -/
theorem Paved.concat {last : Path.Component} (paved : Paved origin tree place front)
    (free : origin.isFree (land place front) last = true)
    (next : tree.get? (onward (land place front) last) = some .directory) :
    Paved origin tree place (front ++ [last]) where
  clear := by
    rw [clear_append, paved.clear, FileTree.clear, free]
    rfl
  built := by
    intro location mem
    rw [missing_append, if_pos paved.clear, missing, if_pos free, missing, List.append_nil] at mem
    rcases List.mem_append.mp mem with before | here
    · exact paved.built location before
    · split at here
      · rw [List.mem_singleton.mp here]
        exact next
      · cases here

/-- A paved way ends at what stands in the way of the next step. -/
theorem Paved.blocked {last : Path.Component} (paved : Paved origin tree place front)
    (notFree : origin.isFree (land place front) last = false) :
    Blocked origin tree place (front ++ [last]) where
  blocked := by rw [clear_append, FileTree.clear, notFree, Bool.false_and, Bool.and_false]
  built := by
    unfold Built
    rw [missing_append, if_pos paved.clear, FileTree.missing, if_neg (by simp [notFree]),
      List.append_nil]
    exact paved.built

theorem ne_nil_of_get?_eq_none (absent : tree.get? location = none) : location ≠ [] := by
  rintro rfl
  cases absent

/-- What is put where nothing was changes no other entry. -/
theorem get?_put_of_absent {entry other : Entry} (absent : tree.get? location = none)
    (stands : tree.get? place = some other) : (tree.put location entry).get? place = some other := by
  rw [get?_put (ne_nil_of_get?_eq_none absent), if_neg ?_]
  · exact stands
  · rintro rfl
    cases absent.symm.trans stands

theorem passed_dropLast_subset (tree : FileTree) (path : Path) :
    passed (tree.startOfPath path) path.steps.dropLast ⊆ tree.route path := by
  have whole := dropLast_append_getLast? path.steps
  unfold route
  nth_rewrite 2 [← whole]
  rw [passed_append]
  exact List.subset_append_left ..

/-- How making a directory can end. -/
inductive Making (origin tree : FileTree) (path : Path) :
    EStateM.Result SystemError FileTree Unit → Prop
  | missing : ¬ Paved origin tree (origin.startOfPath path) path.steps.dropLast →
      Making origin tree path (.error .notFound tree)
  | blocked {cause : SystemError} : cause ≠ .notFound → cause ≠ .alreadyExists →
      Blocked origin tree (origin.startOfPath path) path.steps →
      Making origin tree path (.error cause tree)
  | found : Paved origin tree (origin.startOfPath path) path.steps.dropLast →
      tree.get? (origin.destination path) ≠ none →
      Making origin tree path (.error .alreadyExists tree)
  | made : tree.get? (origin.destination path) = none →
      tree.get? (origin.destination path).dropLast = some .directory →
      origin.destination path ∈ FileTree.missing origin (origin.startOfPath path) path.steps →
      Paved origin (tree.put (origin.destination path) .directory) (origin.startOfPath path)
        path.steps →
      Making origin tree path (.ok () (tree.put (origin.destination path) .directory))

theorem makeDirectory_eq (tree : FileTree) (path : Path) :
    makeDirectory path tree =
      match tree.slot? path with
      | .error cause => .error cause tree
      | .ok none => .error .alreadyExists tree
      | .ok (some slot) =>
        if (tree.get? slot.location).isSome then .error .alreadyExists tree
        else .ok () (tree.put slot.location .directory) := by
  change (look (·.slot? path) >>= _) tree = _
  rw [look_bind_apply]
  cases tree.slot? path with
  | error cause => rfl
  | ok slot =>
    cases slot with
    | none => rfl
    | some slot =>
      change (if (tree.get? slot.location).isSome then _ else _ : FileStep Unit) tree = _
      dsimp only
      cases (tree.get? slot.location).isSome with
      | true => rfl
      | false => rfl

/-- A path that does not end in a name ends in a directory, if its way is there. -/
theorem Outgrown.directory_of_noName (outgrown : Outgrown origin tree (origin.route path))
    (paved : Paved origin tree (origin.startOfPath path) path.steps.dropLast)
    (noName : ∀ name, path.steps.getLast? ≠ some (.name name)) :
    tree.get? (origin.destination path) = some .directory := by
  have before := (outgrown.mono (passed_dropLast_subset origin path)).directory_of_paved paved
  rcases List.eq_nil_or_concat' path.steps with empty | ⟨front, last, whole⟩
  · rw [destination, empty]
    exact outgrown.start path
  · rw [whole, List.dropLast_concat] at before
    rw [destination, whole, land_append, land_cons, land_nil]
    cases last with
    | name name => exact absurd (by rw [whole, List.getLast?_concat]) (noName name)
    | root | current | parent => exact outgrown.sound.directory_dropLast before

theorem making (tidy : Tidy path) (accepted : refuse path = .ok ())
    (outgrown : Outgrown origin tree (origin.route path)) :
    Making origin tree path (makeDirectory path tree) := by
  have slotted := slotting tidy accepted (outgrown.mono (passed_dropLast_subset origin path))
  rw [makeDirectory_eq]
  generalize tree.slot? path = outcome at slotted
  cases slotted with
  | missing unpaved => exact .missing unpaved
  | blocked notFound notExists blocked =>
    have whole := dropLast_append_getLast? path.steps
    exact .blocked notFound notExists (whole ▸ blocked.append _)
  | @tooLong name paved whole long =>
    refine .blocked (by simp) (by simp) (whole ▸ paved.blocked ?_)
    simp [isFree, Nat.not_le.mpr long]
  | noName paved notName =>
    exact .found paved (by simp [outgrown.directory_of_noName paved notName])
  | @named name paved whole short =>
    have last : path.steps.getLast? = some (.name name) := by rw [whole, List.getLast?_concat]
    have lands := (destination_eq last origin).symm
    have before := (outgrown.mono (passed_dropLast_subset origin path)).directory_of_paved paved
    simp only [Slot.location, lands]
    split
    · rename_i found
      exact .found paved (Option.isSome_iff_ne_none.mp found)
    · rename_i absent
      have absent : tree.get? (origin.destination path) = none := by simpa using absent
      have mem : origin.destination path ∈ origin.route path := by
        rw [destination, route, whole]
        exact land_mem_passed ..
      have wasAbsent : origin.get? (origin.destination path) = none := by
        rcases outgrown.grown _ mem with same | ⟨wasAbsent, _⟩
        · exact same.symm.trans absent
        · exact wasAbsent
      have free : origin.isFree (land (origin.startOfPath path) path.steps.dropLast)
          (.name name) = true := by
        simp [isFree, short, lands, wasAbsent]
      refine .made absent ?_ ?_ ?_
      · rw [← lands, List.dropLast_concat]
        exact before
      · rw [whole, missing_append, if_pos paved.clear, missing, if_pos free, onward, lands,
          wasAbsent]
        simp
      · have kept : Paved origin (tree.put (origin.destination path) .directory)
            (origin.startOfPath path) path.steps.dropLast :=
          paved.mono fun _ _ => get?_put_of_absent absent
        rw [whole]
        refine kept.concat free ?_
        rw [onward, lands, get?_put (ne_nil_of_get?_eq_none absent), if_pos rfl]

theorem destination_mem_route (steps : path.steps ≠ []) (tree : FileTree) :
    tree.destination path ∈ tree.route path := by
  rcases List.eq_nil_or_concat' path.steps with empty | ⟨front, last, whole⟩
  · exact absurd empty steps
  · rw [destination, route, whole]
    exact land_mem_passed ..

/-- When the way to the last step is there, and something is where that leads, nothing is missing. -/
theorem Paved.built_of_found (paved : Paved origin tree (origin.startOfPath path) path.steps.dropLast)
    (outgrown : Outgrown origin tree (origin.route path))
    (found : tree.get? (origin.destination path) ≠ none) :
    Built origin tree (origin.startOfPath path) path.steps := by
  rcases List.eq_nil_or_concat' path.steps with empty | ⟨front, last, whole⟩
  · rw [empty]
    exact fun _ none => absurd none List.not_mem_nil
  · have grown := outgrown.grown _ (destination_mem_route (by simp [whole]) origin)
    have lands : origin.destination path =
        onward (land (origin.startOfPath path) front) last := by
      rw [destination, whole, land_append]
      rfl
    rw [whole, List.dropLast_concat] at paved
    rw [whole]
    intro location mem
    rw [missing_append, if_pos paved.clear, missing] at mem
    rcases List.mem_append.mp mem with before | here
    · exact paved.built location before
    · split at here
      · rw [missing, List.append_nil] at here
        split at here
        · rename_i absent
          rw [List.mem_singleton.mp here, ← lands]
          rw [← lands] at absent
          exact (grown.resolve_left fun same =>
            found (same.trans (Option.isNone_iff_eq_none.mp absent))).2
        · cases here
      · cases here

/-- What is found at the end of a way is a directory, or it blocks the way. -/
theorem isDirectory_cases (accepted : refuse path = .ok ())
    (outgrown : Outgrown origin tree (origin.route path))
    (paved : Paved origin tree (origin.startOfPath path) path.steps.dropLast)
    (found : tree.get? (origin.destination path) ≠ none) :
    tree.isDirectory path = true ∧ Paved origin tree (origin.startOfPath path) path.steps ∨
      tree.isDirectory path = false ∧
        Blocked origin tree (origin.startOfPath path) path.steps := by
  have built := paved.built_of_found outgrown found
  have walked := outgrown.walked_resolve accepted
  cases isDirectory : tree.isDirectory path with
  | true =>
    obtain ⟨location, resolved, stands⟩ := find_eq_ok_iff.mp (isDirectory_iff.mp isDirectory)
    rw [resolved] at walked
    exact .inl ⟨rfl, walked.2.2.2.mp stands, built⟩
  | false =>
    refine .inr ⟨rfl, ?_⟩
    cases resolved : tree.resolve path with
    | error cause =>
      rw [resolved] at walked
      cases cause with
      | notFound => exact absurd built walked
      | _ => exact walked.2
    | ok result =>
      rw [resolved] at walked
      obtain ⟨-, -, -, ends⟩ := walked
      refine ⟨Bool.eq_false_iff.mpr fun clear => Bool.eq_false_iff.mp isDirectory ?_, built⟩
      exact isDirectory_iff.mpr (find_eq_ok_iff.mpr ⟨result, resolved, ends.mpr clear⟩)

/-- A paved way leads to its end. -/
theorem resolve_of_paved (accepted : refuse path = .ok ())
    (outgrown : Outgrown origin tree (origin.route path))
    (paved : Paved origin tree (origin.startOfPath path) path.steps) :
    tree.resolve path = .ok (origin.destination path) := by
  have walked := outgrown.walked_resolve accepted
  cases resolved : tree.resolve path with
  | ok result =>
    rw [resolved] at walked
    rw [walked.1, destination]
  | error cause =>
    rw [resolved] at walked
    cases cause with
    | notFound => exact absurd paved.built walked
    | _ => exact absurd (paved.clear.symm.trans walked.2.blocked) Bool.noConfusion

theorem go_ancestry {fuel more : Nat} (enough : path.bytes.length ≤ fuel)
    (atLeast : path.bytes.length ≤ more) :
    ancestry.go fuel path = ancestry.go more path := by
  induction fuel generalizing more path with
  | zero =>
    obtain rfl : path = ⟨[]⟩ :=
      congrArg Path.ofBytes (List.length_eq_zero_iff.mp (Nat.le_zero.mp enough))
    cases more with
    | zero => rfl
    | succ more => rfl
  | succ fuel ih =>
    cases more with
    | zero =>
      obtain rfl : path = ⟨[]⟩ :=
        congrArg Path.ofBytes (List.length_eq_zero_iff.mp (Nat.le_zero.mp atLeast))
      rfl
    | succ more =>
      rw [ancestry.go, ancestry.go]
      cases above : path.parent? with
      | none => rfl
      | some parent =>
        have shorter := Path.length_parent?_lt above
        dsimp only
        rw [@ih _ more (by omega) (by omega)]

theorem ancestry_of_parent? {parent : Path} (above : path.parent? = some parent) :
    ancestry path = path :: ancestry parent := by
  have shorter := Path.length_parent?_lt above
  rw [ancestry, @go_ancestry _ _ (path.bytes.length + 1) (Nat.le_refl _) (Nat.le_succ _),
    ancestry.go, above]
  exact congrArg (path :: ·) (go_ancestry (Nat.le_of_lt shorter) (Nat.le_refl _))

theorem ancestry_of_noParent (top : path.parent? = none) : ancestry path = [] := by
  rw [ancestry, @go_ancestry _ _ (path.bytes.length + 1) (Nat.le_refl _) (Nat.le_succ _),
    ancestry.go, top]

theorem bytes_ne_nil_of_parent? (further : path.parent?.isSome = true) : path.bytes ≠ [] := by
  obtain ⟨text⟩ := path
  rintro rfl
  cases further

section Parent

variable {parent : Path} (above : path.parent? = some parent)

include above

theorem startOfPath_parent? (tree : FileTree) :
    tree.startOfPath parent = tree.startOfPath path :=
  startOfPath_congr (Path.isAbsolute_parent? above) tree

theorem route_parent?_subset (tree : FileTree) : tree.route parent ⊆ tree.route path := by
  rw [route, startOfPath_parent? above, Path.steps_parent? above]
  exact passed_dropLast_subset tree path

theorem missing_parent?_subset (tree : FileTree) :
    missing tree (tree.startOfPath parent) parent.steps ⊆
      missing tree (tree.startOfPath path) path.steps := by
  have whole := dropLast_append_getLast? path.steps
  rw [startOfPath_parent? above, Path.steps_parent? above]
  nth_rewrite 2 [← whole]
  rw [missing_append]
  exact List.subset_append_left ..

theorem refuse_parent? (accepted : refuse path = .ok ()) (nonempty : parent.bytes ≠ []) :
    refuse parent = .ok () :=
  refuse_of_isPrefix accepted (Path.bytes_parent?_isPrefix above) nonempty

end Parent

/-- A file is filled if the system takes its content, and cut off if not. -/
theorem fill_cases (location : Location) (content : ByteArray) (tree : FileTree) :
    (tree.takes content = true ∧
        fill location content tree = .ok () (tree.put location (.file content))) ∨
      tree.takes content = false ∧ ∃ part,
        fill location content tree = .error .noSpace (tree.put location (.file part)) := by
  cases takes : tree.takes content with
  | true => exact .inl ⟨rfl, if_pos takes⟩
  | false => exact .inr ⟨rfl, _, if_neg (Bool.eq_false_iff.mp takes)⟩

/-- A file can be moved to where a path leads, once the way there is paved. -/
structure Receives (origin tree : FileTree) (path : Path) : Prop where
  accepted : refuse path = .ok ()
  short : ∀ name, path.steps.getLast? = some (.name name) → name.length ≤ nameLimit
  vacant : tree.get? (origin.destination path) ≠ some .directory

theorem moveFile_eq (source : Location) (path : Path) (tree : FileTree) :
    moveFile source path tree =
      match tree.slot? path with
      | .error cause => .error cause tree
      | .ok none => .error .busy tree
      | .ok (some slot) =>
        if slot.asDirectory then .error .notDirectory tree
        else
          match tree.get? source, tree.get? slot.location with
          | _, some .directory => .error .isDirectory tree
          | some entry, _ => .ok () ((tree.erase source).put slot.location entry)
          | none, _ => .error .notFound tree := by
  change (look (·.slot? path) >>= _) tree = _
  rw [look_bind_apply]
  cases tree.slot? path with
  | error cause => rfl
  | ok slot =>
    cases slot with
    | none => rfl
    | some slot =>
      obtain ⟨directory, name, asDirectory⟩ := slot
      cases asDirectory with
      | true => rfl
      | false =>
        change (match tree.get? source, tree.get? (Slot.location ⟨directory, name, false⟩) with
          | _, some .directory => throw .isDirectory
          | some entry, _ => modify fun tree =>
            (tree.erase source).put (Slot.location ⟨directory, name, false⟩) entry
          | none, _ => throw .notFound : FileStep Unit) tree = _
        dsimp only [Bool.false_eq_true, if_false]
        generalize tree.get? source = found
        generalize tree.get? (Slot.location ⟨directory, name, false⟩) = there
        rcases found with _ | entry <;> rcases there with _ | (_ | _ | _) <;> rfl

/-- A file is moved into the slot of a path, unless a directory is there, or it is not moved at
all. -/
theorem moveFile_spec {source : Location} {entry : Entry} (stands : tree.get? source = some entry)
    (path : Path) :
    (∃ slot, tree.slot? path = .ok (some slot) ∧ slot.asDirectory = false ∧
        tree.get? slot.location ≠ some .directory ∧
        moveFile source path tree = .ok () ((tree.erase source).put slot.location entry)) ∨
      (∀ slot, tree.slot? path = .ok (some slot) → slot.asDirectory = false →
          tree.get? slot.location = some .directory) ∧
        ∃ cause, moveFile source path tree = .error cause tree := by
  rw [moveFile_eq, stands]
  cases tree.slot? path with
  | error cause => exact .inr ⟨by simp, cause, rfl⟩
  | ok slot =>
    cases slot with
    | none => exact .inr ⟨by simp, .busy, rfl⟩
    | some slot =>
      dsimp only
      cases closed : slot.asDirectory with
      | true => exact .inr ⟨by simp [closed], .notDirectory, rfl⟩
      | false =>
        rw [if_neg Bool.false_ne_true]
        cases there : tree.get? slot.location with
        | none => exact .inl ⟨slot, rfl, closed, by simp [there], rfl⟩
        | some other =>
          cases other with
          | directory => exact .inr ⟨by simp [there], .isDirectory, rfl⟩
          | file content => exact .inl ⟨slot, rfl, closed, by simp [there], rfl⟩
          | link target => exact .inl ⟨slot, rfl, closed, by simp [there], rfl⟩

theorem moveFile_cases {source : Location} {entry : Entry} {name : OsText} (tidy : Tidy path)
    (outgrown : Outgrown origin tree (passed (origin.startOfPath path) path.steps.dropLast))
    (paved : Paved origin tree (origin.startOfPath path) path.steps.dropLast)
    (named : path.steps.getLast? = some (.name name)) (stands : tree.get? source = some entry) :
    Receives origin tree path ∧
        moveFile source path tree = .ok () ((tree.erase source).put (origin.destination path) entry) ∨
      ¬ Receives origin tree path ∧ ∃ cause, moveFile source path tree = .error cause tree := by
  have lands := (destination_eq named origin).symm
  rcases moveFile_spec stands path with ⟨slot, found, -, vacant, moves⟩ | ⟨occupied, fails⟩
  · obtain ⟨_, accepted, -⟩ := exists_of_bind_eq_ok found
    have slotted := slotting tidy accepted outgrown
    rw [found] at slotted
    cases slotted with
    | @named other _ ends short =>
      rw [ends, List.getLast?_concat] at named
      obtain rfl := Path.Component.name.inj (Option.some.inj named)
      rw [Slot.location, lands] at vacant moves
      refine .inl ⟨⟨accepted, fun another last => ?_, vacant⟩, moves⟩
      rw [ends, List.getLast?_concat] at last
      obtain rfl := Path.Component.name.inj (Option.some.inj last)
      exact short
  · refine .inr ⟨fun receives => ?_, fails⟩
    have slotted := slotting tidy receives.accepted outgrown
    generalize found : tree.slot? path = outcome at slotted
    cases slotted with
    | missing unpaved => exact unpaved paved
    | blocked _ _ blocked => cases paved.clear.symm.trans blocked.blocked
    | @tooLong other _ ends long =>
      have short := receives.short other (by rw [ends, List.getLast?_concat])
      omega
    | noName _ notName => exact notName name named
    | @named other _ ends short =>
      rw [ends, List.getLast?_concat] at named
      obtain rfl := Path.Component.name.inj (Option.some.inj named)
      have directory := occupied _ found rfl
      rw [Slot.location, lands] at directory
      exact receives.vacant directory

end Hyperlisting.FileTree
