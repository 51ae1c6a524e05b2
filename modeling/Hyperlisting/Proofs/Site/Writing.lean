import Hyperlisting.Proofs.Site.Footprint

/-! What writing a page ensures while others change the tree: all directories that were missing on
the way to the page are made as far as nothing stands in the way, and the page is put in its place
exactly when the tree that the others started from admits it; else its place stays as it was. -/

namespace Hyperlisting.Footprint

open FileTree

variable {footprint : Footprint} {origin base tree after : FileTree} {place : Location}
  {path : Path}

/-- What a worker finds before it has put anything but directories anywhere. -/
structure View (footprint : Footprint) (origin base tree : FileTree) : Prop where
  outgrown : Outgrown origin tree footprint.area
  room : tree.room = origin.room
  own : ∀ place ∈ footprint.own, tree.get? place = base.get? place ∨
    place ∈ footprint.wanted ∧ tree.get? place = some .directory

theorem View.rely (view : footprint.View origin base tree)
    (rely : footprint.Rely origin tree after) : footprint.View origin base after where
  outgrown := rely.outgrown (List.Subset.refl _) view.outgrown
  room := rely.room.trans view.room
  own place mem := rely.own place mem ▸ view.own place mem

/-- A wanted directory can be made in a directory if nothing is there. -/
theorem View.make (view : footprint.View origin base tree) (wanted : place ∈ footprint.wanted)
    (wasAbsent : origin.get? place = none) (absent : tree.get? place = none)
    (above : tree.get? place.dropLast = some .directory) :
    footprint.Guarantee tree (tree.put place .directory) ∧
      footprint.View origin base (tree.put place .directory) := by
  have nonempty := ne_nil_of_get?_eq_none absent
  have sound : (tree.put place .directory).Sound :=
    view.outgrown.sound.put nonempty above (.inr rfl)
  refine ⟨⟨fun _ => sound, rfl, rfl, fun other _ => ?_⟩, ⟨⟨sound, view.outgrown.current,
    fun other mem => ?_, view.outgrown.unlinked⟩, view.room, fun other mem => ?_⟩⟩
  · rw [get?_put nonempty]
    split
    · rename_i same
      exact .inr ⟨same ▸ wanted, same ▸ absent, rfl⟩
    · exact .inl rfl
  · rw [get?_put nonempty]
    split
    · rename_i same
      exact .inr ⟨same ▸ wasAbsent, rfl⟩
    · exact view.outgrown.grown other mem
  · rw [get?_put nonempty]
    split
    · rename_i same
      exact .inr ⟨same ▸ wanted, rfl⟩
    · exact view.own other mem

/-- The way of a path is there, or something stands in it, as trying to make it has shown. -/
def Reaches (origin tree : FileTree) (path : Path) : Except SystemError Unit → Prop
  | .ok _ => Paved origin tree (origin.startOfPath path) path.steps
  | .error _ => Blocked origin tree (origin.startOfPath path) path.steps

theorem Reaches.rely {result : Except SystemError Unit} (reaches : Reaches origin tree path result)
    (area : origin.route path ⊆ footprint.area) (rely : footprint.Rely origin tree after) :
    Reaches origin after path result := by
  cases result with
  | ok => exact Paved.mono reaches fun place mem => rely.directory (area mem)
  | error cause => exact Blocked.mono reaches fun place mem => rely.directory (area mem)

/-- What an attempt to make directories ensures. -/
def Made (footprint : Footprint) (origin base : FileTree) (path : Path)
    (result : Except SystemError Unit) (tree : FileTree) : Prop :=
  footprint.View origin base tree ∧ Reaches origin tree path result

theorem ensures_done {result : Except SystemError Unit} (view : footprint.View origin base tree)
    (area : origin.route path ⊆ footprint.area) (reaches : Reaches origin tree path result) :
    footprint.Ensures origin (Made footprint origin base path) (.done result) tree :=
  fun _ rely => ⟨view.rely rely, reaches.rely area rely⟩

section MakeNested

variable (area : origin.route path ⊆ footprint.area)
  (wanted : missing origin (origin.startOfPath path) path.steps ⊆ footprint.wanted)
  (accepted : refuse path = .ok ()) (tidy : Tidy path)

include area wanted accepted

theorem ensures_settle {made : EStateM.Result SystemError FileTree Unit}
    (view : footprint.View origin base tree) (making : Making origin tree path made)
    (found : ∀ after, made ≠ .error .notFound after) :
    footprint.Guarantee tree (Worker.outcome made).2 ∧
      footprint.Ensures origin (Made footprint origin base path)
        (Worker.settle path (Worker.outcome made).1) (Worker.outcome made).2 := by
  cases making with
  | missing _ => exact absurd rfl (found tree)
  | @blocked cause _ notExists blocked =>
    refine ⟨.refl .., ?_⟩
    have settles : Worker.settle path (.error cause) = .done (.error cause) := by
      cases cause with
      | alreadyExists => exact absurd rfl notExists
      | _ => rfl
    change footprint.Ensures origin _ (Worker.settle path (.error cause)) tree
    rw [settles]
    exact ensures_done view area blocked
  | found paved stands =>
    refine ⟨.refl .., fun found rely => ⟨.refl .., ?_⟩⟩
    have view := view.rely rely
    have outgrown := view.outgrown.mono area
    have paved := paved.mono fun place mem =>
      rely.directory (area (passed_dropLast_subset origin path mem))
    have stands : found.get? (origin.destination path) ≠ none := by
      by_cases steps : path.steps = []
      · have start := outgrown.start path
        rw [destination, steps, land_nil, start]
        simp
      · rcases rely.area _ (area (destination_mem_route steps origin)) with same | ⟨_, _, made⟩
        · rwa [same]
        · simp [made]
    beta_reduce
    rcases isDirectory_cases accepted outgrown paved stands with ⟨isDirectory, paved⟩ |
      ⟨notDirectory, blocked⟩
    · rw [if_pos isDirectory]
      exact ensures_done view area paved
    · rw [if_neg (by simp [notDirectory])]
      exact ensures_done view area blocked
  | made absent above mem paved =>
    obtain ⟨keeps, view⟩ := view.make (wanted mem) (get?_of_mem_missing mem) absent above
    exact ⟨keeps, ensures_done view area paved⟩

include tidy

/-- An attempt to make a directory, once those above it have been seen to. -/
theorem ensures_attempt (view : footprint.View origin base tree)
    (paved : Paved origin tree (origin.startOfPath path) path.steps.dropLast) :
    footprint.Ensures origin (Made footprint origin base path)
      ((Worker.once (makeDirectory path)).bind (Worker.settle path)) tree := by
  intro found rely
  have view := view.rely rely
  have paved := paved.mono fun place mem =>
    rely.directory (area (passed_dropLast_subset origin path mem))
  have making := making tidy accepted (view.outgrown.mono area)
  refine ensures_settle area wanted accepted view making fun after same => ?_
  rw [same] at making
  cases making with
  | missing unpaved => exact unpaved paved
  | blocked notFound => exact notFound rfl

/-- What stands in the way of the directory around a path stands in the way of the path. -/
theorem ensures_further {parent : Path} {worker : Worker (Except SystemError Unit)}
    (above : path.parent? = some parent)
    (around : footprint.Ensures origin (Made footprint origin base parent) worker tree) :
    footprint.Ensures origin (Made footprint origin base path)
      (worker.andThen fun () => (Worker.once (makeDirectory path)).bind (Worker.settle path))
      tree := by
  refine around.bind ?_
  rintro result after ⟨view, reaches⟩
  unfold Reaches at reaches
  rw [startOfPath_parent? above, Path.steps_parent? above] at reaches
  cases result with
  | ok => exact ensures_attempt area wanted accepted tidy view reaches
  | error cause =>
    refine ensures_done view area ?_
    rw [Reaches, ← dropLast_append_getLast? path.steps]
    exact reaches.append _

end MakeNested

theorem ensures_makeNested (path : Path) (area : origin.route path ⊆ footprint.area)
    (wanted : missing origin (origin.startOfPath path) path.steps ⊆ footprint.wanted)
    (accepted : path.parent?.isSome = true → refuse path = .ok ())
    (tidy : path.parent?.isSome = true → Tidy path) (view : footprint.View origin base tree) :
    footprint.Ensures origin (Made footprint origin base path)
      (Worker.makeNested (ancestry path)) tree := by
  generalize paths : ancestry path = members
  induction members generalizing path tree with
  | nil =>
    have noSteps : path.steps = [] := by
      by_contra steps
      obtain ⟨parent, above⟩ := Path.exists_parent? steps
      rw [ancestry_of_parent? above] at paths
      cases paths
    refine ensures_done view area ?_
    rw [Reaches, noSteps]
    exact ⟨rfl, fun _ none => absurd none List.not_mem_nil⟩
  | cons member outer ih =>
    cases above : path.parent? with
    | none =>
      rw [ancestry_of_noParent above] at paths
      cases paths
    | some parent =>
      rw [ancestry_of_parent? above] at paths
      obtain ⟨same, same'⟩ := List.cons.inj paths
      subst same same'
      have further : path.parent?.isSome = true := by rw [above]; rfl
      have tidy := tidy further
      have accepted := accepted further
      have parentArea := List.Subset.trans (route_parent?_subset above origin) area
      have parentWanted := List.Subset.trans (missing_parent?_subset above origin) wanted
      have parentAccepted (more : parent.parent?.isSome = true) : refuse parent = .ok () :=
        refuse_parent? above accepted (bytes_ne_nil_of_parent? more)
      rw [Worker.makeNested]
      refine Ensures.once_bind fun found rely => ?_
      have view := view.rely rely
      have making := making tidy accepted (view.outgrown.mono area)
      generalize makeDirectory path found = made at making ⊢
      by_cases missing : ∃ after, made = .error .notFound after
      · obtain ⟨after, rfl⟩ := missing
        cases making with
        | blocked notFound => exact absurd rfl notFound
        | missing =>
          exact ⟨.refl .., ensures_further area wanted accepted tidy above
            (ih parent parentArea parentWanted parentAccepted (tidy_parent? above) view rfl)⟩
      · have settled := ensures_settle area wanted accepted view making fun after same =>
          missing ⟨after, same⟩
        cases made with
        | ok value after => exact settled
        | error cause after =>
          cases cause with
          | notFound => exact absurd ⟨after, rfl⟩ missing
          | _ => exact settled

end Hyperlisting.Footprint
