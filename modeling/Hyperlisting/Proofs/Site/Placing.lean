import Hyperlisting.Proofs.Site.Writing

/-! What writing a page ensures while others change the tree. The directories around it are made, it
is put together under a name of its own next to its place, and it comes to its place exactly when
the tree that all set out from admits it there. -/

namespace Hyperlisting.Footprint

open FileTree
open Worker (directoryOf spelled)

variable {footprint : Footprint} {origin base tree after : FileTree} {place : Location}
  {path parent : Path} {name last : OsText} {content : ByteArray}

theorem text_of_noParent (above : path.parent? = some parent) (top : parent.parent? = none) :
    parent.bytes = [] ∨ parent.bytes = [Path.separator] := by
  have none : ¬ (parent.steps ≠ [] ∨ parent.parts.start = some .current) := by
    rw [← Path.parent?_isSome_iff, top]
    simp
  rcases Path.parent?_cases above with ⟨-, -, rfl⟩ | ⟨-, proper, rfl⟩
  · exact .inl rfl
  · rw [Path.steps_ofParts proper, Path.start_ofParts proper, not_or, not_not] at none
    dsimp only at none
    rw [Path.filterMap_trimEnd] at none
    rw [Path.trimEnd_eq_nil_iff.mpr none.1] at proper ⊢
    rcases proper.start with root | current | ⟨relative, _⟩
    · rw [show path.parts.start = _ from root]
      exact .inr rfl
    · exact absurd current none.2
    · rw [show path.parts.start = _ from relative]
      exact .inl rfl

theorem refuse_error {cause : SystemError} (refused : refuse path = .error cause)
    (nonempty : path.bytes ≠ []) : cause ≠ .notFound ∧ cause ≠ .alreadyExists := by
  simp only [refuse, List.isEmpty_iff, if_neg nonempty] at refused
  split at refused
  · obtain rfl := Except.error.inj refused
    simp
  · split at refused
    · obtain rfl := Except.error.inj refused
      simp
    · cases refused

/-- The directories that are made on the way to a page: none if the path of its directory is refused
at once. -/
def wantedAbove (origin : FileTree) (path : Path) : List Location :=
  match refuse (directoryOf path) with
  | .ok _ => missing origin (origin.startOfPath path) path.steps.dropLast
  | .error _ => []

/-- A page of some content can be put where its path leads, once what is missing on the way is
made. -/
structure Admits (origin : FileTree) (path : Path) (content : ByteArray) : Prop where
  clear : origin.clear (origin.startOfPath path) path.steps.dropLast = true
  receives : Receives origin origin path
  free : origin.destination path ∉ wantedAbove origin path
  takes : origin.takes content = true

/-- The unfinished page lies next to where the page goes. -/
def unfinished (origin : FileTree) (path : Path) (name : OsText) : Location :=
  (origin.destination path).dropLast ++ [name]

/-- What making the directories around a page ensures. -/
def Prepared (footprint : Footprint) (origin base : FileTree) (path : Path)
    (result : Except SystemError Unit) (tree : FileTree) : Prop :=
  footprint.View origin base tree ∧
    match result with
    | .ok _ => Paved origin tree (origin.startOfPath path) path.steps.dropLast ∧
      ((directoryOf path).bytes ≠ [] → refuse (directoryOf path) = .ok ())
    | .error _ => (∀ content, ¬ Admits origin path content) ∧
      ∀ place ∈ wantedAbove origin path, tree.get? place = some .directory

section Page

variable (tidy : Tidy path) (named : path.steps.getLast? = some (.name last))
  (area : passed (origin.startOfPath path) path.steps.dropLast ⊆ footprint.area)
  (wanted : wantedAbove origin path ⊆ footprint.wanted)

include named in
omit tidy area wanted in
theorem parent?_eq_directoryOf : path.parent? = some (directoryOf path) := by
  have steps : path.steps ≠ [] := by
    intro empty
    rw [empty] at named
    cases named
  obtain ⟨parent, above⟩ := Path.exists_parent? steps
  rw [directoryOf, above]
  rfl

include named in
omit tidy area wanted in
/-- The directory around a page lies on the way to the page. -/
theorem directoryOf_steps : (directoryOf path).steps = path.steps.dropLast ∧
    origin.startOfPath (directoryOf path) = origin.startOfPath path := by
  have above := parent?_eq_directoryOf named
  exact ⟨Path.steps_parent? above, startOfPath_parent? above origin⟩

include named in
omit tidy area wanted in
theorem wantedAbove_eq
    (accepted : (directoryOf path).bytes ≠ [] → refuse (directoryOf path) = .ok ()) :
    wantedAbove origin path = missing origin (origin.startOfPath path) path.steps.dropLast := by
  by_cases empty : (directoryOf path).bytes = []
  · have noSteps : path.steps.dropLast = [] := by
      have same : directoryOf path = ⟨[]⟩ := congrArg Path.ofBytes empty
      rw [← (@directoryOf_steps origin _ _ named).1, same]
      rfl
    rw [wantedAbove, noSteps]
    split <;> rfl
  · rw [wantedAbove, accepted empty]

omit tidy named area wanted in
theorem wantedAbove_subset :
    wantedAbove origin path ⊆ missing origin (origin.startOfPath path) path.steps.dropLast := by
  unfold wantedAbove
  split
  · exact List.Subset.refl _
  · exact List.nil_subset _

include named area wanted in
theorem ensures_makeDirectories (view : footprint.View origin base tree) :
    footprint.Ensures origin (Prepared footprint origin base path)
      (Worker.makeNested (ancestry (directoryOf path))) tree := by
  have above := parent?_eq_directoryOf named
  obtain ⟨steps, start⟩ := @directoryOf_steps origin _ _ named
  by_cases accepted : (directoryOf path).bytes ≠ [] → refuse (directoryOf path) = .ok ()
  · have dirArea : origin.route (directoryOf path) ⊆ footprint.area := by
      rw [route, start, steps]
      exact area
    have dirWanted : missing origin (origin.startOfPath (directoryOf path)) (directoryOf path).steps ⊆
        footprint.wanted := by
      rw [start, steps, ← wantedAbove_eq named accepted]
      exact wanted
    have made := ensures_makeNested _ dirArea dirWanted
      (fun further => accepted (bytes_ne_nil_of_parent? further)) (tidy_parent? above) view
    refine made.imp ?_
    rintro result found ⟨view, reaches⟩
    unfold Reaches at reaches
    rw [start, steps] at reaches
    refine ⟨view, ?_⟩
    cases result with
    | ok => exact ⟨reaches, accepted⟩
    | error cause =>
      refine ⟨fun content admits => ?_, fun place mem => ?_⟩
      · exact Bool.noConfusion (admits.clear.symm.trans reaches.blocked)
      · exact reaches.built place (wantedAbove_subset mem)
  · -- The path is refused at once, and so is that of the page.
    rw [Classical.not_imp] at accepted
    obtain ⟨nonempty, accepted⟩ := accepted
    cases refused : refuse (directoryOf path) with
    | ok => exact absurd refused accepted
    | error cause =>
      obtain ⟨notFound, notExists⟩ := refuse_error refused nonempty
      have further : (directoryOf path).parent? ≠ none := by
        intro top
        rcases text_of_noParent above top with empty | root
        · exact nonempty empty
        · have same : directoryOf path = ⟨[Path.separator]⟩ := congrArg Path.ofBytes root
          exact accepted (by rw [same]; decide)
      obtain ⟨parent, further⟩ := Option.ne_none_iff_exists'.mp further
      rw [ancestry_of_parent? further, Worker.makeNested]
      refine Ensures.once_bind fun found rely => ?_
      have fails : makeDirectory (directoryOf path) found = .error cause found := by
        rw [makeDirectory_eq, slot?, refused]
        rfl
      rw [fails]
      have ends : footprint.Ensures origin (Prepared footprint origin base path)
          (.done (.error cause)) found := by
        refine fun later relyLater => ⟨(view.rely rely).rely relyLater, fun content admits => ?_, ?_⟩
        · exact accepted (refuse_parent? above admits.receives.accepted nonempty)
        · rw [wantedAbove, refused]
          exact fun _ none => absurd none List.not_mem_nil
      cases cause with
      | notFound => exact absurd rfl notFound
      | alreadyExists => exact absurd rfl notExists
      | _ => exact ⟨.refl .., ends⟩

end Page

/-- The way to the page is there, and its place is as it was but for a directory of the way. -/
structure Laid (origin base tree : FileTree) (path : Path) : Prop where
  outgrown : Outgrown origin tree (passed (origin.startOfPath path) path.steps.dropLast)
  room : tree.room = origin.room
  paved : Paved origin tree (origin.startOfPath path) path.steps.dropLast
  destination : tree.get? (origin.destination path) = base.get? (origin.destination path) ∨
    origin.destination path ∈ wantedAbove origin path ∧
      tree.get? (origin.destination path) = some .directory

/-- What writing a page ensures: the directories that were missing are there and the unfinished page
is not, and the page is in its place if the first tree admits it there. -/
structure Written (origin base : FileTree) (path : Path) (name : OsText) (content : ByteArray)
    (result : Except SystemError Unit) (tree : FileTree) : Prop where
  made : ∀ place ∈ wantedAbove origin path, tree.get? place = some .directory
  temporary : tree.get? (unfinished origin path name) = none
  destination :
    match result with
    | .ok _ => Admits origin path content ∧
      tree.get? (origin.destination path) = some (.file content)
    | .error _ => ¬ Admits origin path content ∧
      (tree.get? (origin.destination path) = base.get? (origin.destination path) ∨
        origin.destination path ∈ wantedAbove origin path)

/-- The directory around a page is found where its way ends. -/
theorem resolve_spelled (named : path.steps.getLast? = some (.name last))
    (outgrown : Outgrown origin tree (passed (origin.startOfPath path) path.steps.dropLast))
    (paved : Paved origin tree (origin.startOfPath path) path.steps.dropLast)
    (accepted : (directoryOf path).bytes ≠ [] → refuse (directoryOf path) = .ok ()) :
    tree.resolve (spelled (directoryOf path)) = .ok (origin.destination path).dropLast := by
  obtain ⟨steps, start⟩ := @directoryOf_steps origin _ _ named
  rw [destination_eq named, List.dropLast_concat]
  rw [← start, ← steps] at outgrown paved ⊢
  by_cases empty : (directoryOf path).bytes = []
  · have same : directoryOf path = ⟨[]⟩ := congrArg Path.ofBytes empty
    rw [same]
    exact congrArg Except.ok outgrown.current
  · rw [spelled, if_neg (by simpa using empty)]
    exact resolve_of_paved (accepted empty) outgrown paved

theorem get?_put_self {entry : Entry} (nonempty : place ≠ []) :
    (tree.put place entry).get? place = some entry := by
  rw [get?_put nonempty, if_pos rfl]

section Replace

variable (tidy : Tidy path) (named : path.steps.getLast? = some (.name last))
  (area : passed (origin.startOfPath path) path.steps.dropLast ⊆ footprint.area)
  (ownDestination : origin.destination path ∈ footprint.own)
  (ownTemporary : unfinished origin path name ∈ footprint.own)
  (apart : unfinished origin path name ≠ origin.destination path)

include area ownDestination in
theorem Laid.rely (laid : Laid origin base tree path)
    (rely : footprint.Rely origin tree after) : Laid origin base after path where
  outgrown := rely.outgrown area laid.outgrown
  room := rely.room.trans laid.room
  paved := laid.paved.mono fun _ mem => rely.directory (area mem)
  destination := rely.own _ ownDestination ▸ laid.destination

include area ownDestination ownTemporary in
theorem Written.rely {result : Except SystemError Unit}
    (written : Written origin base path name content result tree)
    (rely : footprint.Rely origin tree after) :
    Written origin base path name content result after where
  made place mem :=
    rely.directory (area (missing_subset_passed _ _ _ (wantedAbove_subset mem)))
      (written.made place mem)
  temporary := (rely.own _ ownTemporary).trans written.temporary
  destination := by
    rw [rely.own _ ownDestination]
    exact written.destination

include named in
theorem Laid.directory (laid : Laid origin base tree path) :
    tree.get? (origin.destination path).dropLast = some .directory := by
  rw [destination_eq named, List.dropLast_concat]
  exact laid.outgrown.directory_of_paved laid.paved

theorem Laid.directory_of_mem (laid : Laid origin base tree path)
    (mem : place ∈ passed (origin.startOfPath path) path.steps.dropLast) :
    tree.get? place = some .directory :=
  laid.paved.directory_of_mem laid.outgrown.sound laid.outgrown.grown (laid.outgrown.start path) mem

include named ownTemporary apart in
/-- The unfinished page can be put next to the place of the page. -/
theorem Laid.put (laid : Laid origin base tree path)
    (vacant : tree.get? (unfinished origin path name) ≠ some .directory) :
    footprint.Guarantee tree (tree.put (unfinished origin path name) (.file content)) ∧
      Laid origin base (tree.put (unfinished origin path name) (.file content)) path := by
  have nonempty : unfinished origin path name ≠ [] := by simp [unfinished]
  have above : tree.get? (unfinished origin path name).dropLast = some .directory := by
    rw [unfinished, List.dropLast_concat]
    exact laid.directory named
  have sound := @Sound.put _ _ (.file content) laid.outgrown.sound nonempty above (.inl vacant)
  have elsewhere {place : Location} (other : unfinished origin path name ≠ place) :
      (tree.put (unfinished origin path name) (.file content)).get? place = tree.get? place := by
    rw [get?_put nonempty, if_neg other]
  have offWay {place : Location}
      (mem : place ∈ passed (origin.startOfPath path) path.steps.dropLast) :
      (tree.put (unfinished origin path name) (.file content)).get? place = tree.get? place :=
    elsewhere fun same => vacant (same ▸ laid.directory_of_mem mem)
  refine ⟨⟨fun _ => sound, rfl, rfl, fun place notOwn => .inl (elsewhere fun same => ?_)⟩, ⟨⟨sound,
    laid.outgrown.current, fun place mem => ?_, laid.outgrown.unlinked⟩, laid.room,
    laid.paved.mono fun place mem stood => ?_, ?_⟩⟩
  · exact notOwn (same ▸ ownTemporary)
  · rw [offWay mem]
    exact laid.outgrown.grown place mem
  · exact (offWay mem).trans stood
  · rw [elsewhere apart]
    exact laid.destination

theorem Laid.made (laid : Laid origin base tree path)
    (mem : place ∈ wantedAbove origin path) : tree.get? place = some .directory :=
  laid.paved.built place (wantedAbove_subset mem)

/-- Nothing but a directory in its place, or its size, keeps a page from where the first tree admits
it. -/
theorem Laid.admits_iff (laid : Laid origin base tree path)
    (kept : base.get? (origin.destination path) = origin.get? (origin.destination path)) :
    Admits origin path content ↔ Receives origin tree path ∧ tree.takes content = true := by
  rw [takes, laid.room, ← takes]
  constructor
  · rintro ⟨-, ⟨accepted, short, vacant⟩, free, takes⟩
    refine ⟨⟨accepted, short, ?_⟩, takes⟩
    rw [laid.destination.resolve_right fun made => free made.1, kept]
    exact vacant
  · rintro ⟨⟨accepted, short, vacant⟩, takes⟩
    have free : origin.destination path ∉ wantedAbove origin path := fun mem =>
      vacant (laid.made mem)
    refine ⟨laid.paved.clear, ⟨accepted, short, ?_⟩, free, takes⟩
    rw [← kept, ← laid.destination.resolve_right fun made => free made.1]
    exact vacant

theorem unfinished_ne (stands : tree.get? (unfinished origin path name) = some (.file content))
    (directory : tree.get? place = some .directory) : unfinished origin path name ≠ place := by
  rintro rfl
  cases stands.symm.trans directory

include named ownDestination ownTemporary apart in
/-- The page can be moved to its place if nothing there keeps it out. -/
theorem Laid.move (laid : Laid origin base tree path)
    (kept : base.get? (origin.destination path) = origin.get? (origin.destination path))
    (stands : tree.get? (unfinished origin path name) = some (.file content))
    (takes : tree.takes content = true) (receives : Receives origin tree path) :
    let moved := (tree.erase (unfinished origin path name)).put (origin.destination path)
      (.file content)
    footprint.Guarantee tree moved ∧ Written origin base path name content (.ok ()) moved := by
  have nonempty : unfinished origin path name ≠ [] := by simp [unfinished]
  have below : origin.destination path ≠ [] := by simp [destination_eq named]
  have lands (place : Location) :
      ((tree.erase (unfinished origin path name)).put (origin.destination path)
        (.file content)).get? place =
        if origin.destination path = place then some (.file content)
        else if unfinished origin path name = place then none else tree.get? place := by
    rw [get?_put below, get?_erase nonempty]
  refine ⟨⟨fun sound => ?_, rfl, rfl, fun place notOwn => .inl ?_⟩, ⟨fun place mem => ?_, ?_, ?_⟩⟩
  · have directory := laid.directory named
    refine (sound.erase nonempty (by simp [stands])).put below ?_ (.inl ?_)
    · rwa [get?_erase nonempty, if_neg (unfinished_ne stands directory)]
    · rw [get?_erase nonempty, if_neg apart]
      exact receives.vacant
  · have offOwn {mine : Location} (own : mine ∈ footprint.own) : mine ≠ place := by
      rintro rfl
      exact notOwn own
    rw [lands, if_neg (offOwn ownDestination), if_neg (offOwn ownTemporary)]
  · have stood := laid.made mem
    have offDestination : origin.destination path ≠ place := by
      rintro rfl
      exact receives.vacant stood
    rw [lands, if_neg offDestination, if_neg (unfinished_ne stands stood), stood]
  · rw [lands, if_neg apart.symm, if_pos rfl]
  · exact ⟨(laid.admits_iff kept).mpr ⟨receives, takes⟩, get?_put_self below⟩

include ownTemporary apart in
/-- The unfinished page can be taken away again. -/
theorem Laid.takeAway {cause : SystemError} {part : ByteArray} (laid : Laid origin base tree path)
    (stands : tree.get? (unfinished origin path name) = some (.file part))
    (notAdmitted : ¬ Admits origin path content) :
    footprint.Guarantee tree (tree.erase (unfinished origin path name)) ∧
      Written origin base path name content (.error cause)
        (tree.erase (unfinished origin path name)) := by
  have nonempty : unfinished origin path name ≠ [] := by simp [unfinished]
  refine ⟨⟨fun sound => sound.erase nonempty (by simp [stands]), rfl, rfl,
      fun place notOwn => .inl ?_⟩,
    ⟨fun place mem => ?_, ?_, ?_⟩⟩
  · have offOwn : unfinished origin path name ≠ place := by
      rintro rfl
      exact notOwn ownTemporary
    rw [get?_erase nonempty, if_neg offOwn]
  · have stood := laid.made mem
    rw [get?_erase nonempty, if_neg (unfinished_ne stands stood), stood]
  · rw [get?_erase nonempty, if_pos rfl]
  · rw [get?_erase nonempty, if_neg apart]
    exact ⟨notAdmitted, laid.destination.imp_right And.left⟩

include area ownDestination ownTemporary apart in
/-- After a failure the unfinished page is taken away. -/
theorem ensures_takeAway {cause : SystemError} {part : ByteArray} (laid : Laid origin base tree path)
    (stands : tree.get? (unfinished origin path name) = some (.file part))
    (notAdmitted : ¬ Admits origin path content) :
    footprint.Ensures origin (Written origin base path name content)
      (.step (·.erase (unfinished origin path name)) fun _ => .done (.error cause)) tree := by
  intro found rely
  have laid := laid.rely area ownDestination rely
  have stands := (rely.own _ ownTemporary).trans stands
  obtain ⟨keeps, written⟩ : footprint.Guarantee found _ ∧ _ :=
    laid.takeAway ownTemporary apart stands notAdmitted
  exact ⟨keeps, fun later rely => written.rely area ownDestination ownTemporary rely⟩

include tidy named area ownDestination ownTemporary apart in
theorem ensures_move (laid : Laid origin base tree path)
    (kept : base.get? (origin.destination path) = origin.get? (origin.destination path))
    (takes : tree.takes content = true)
    (stands : tree.get? (unfinished origin path name) = some (.file content)) :
    footprint.Ensures origin (Written origin base path name content)
      ((Worker.once (moveFile (unfinished origin path name) path)).bind fun
        | .ok () => .done (.ok ())
        | .error cause =>
          .step (·.erase (unfinished origin path name)) fun _ => .done (.error cause)) tree := by
  refine Ensures.once_bind fun found rely => ?_
  rw [FileTree.takes, ← rely.room, ← FileTree.takes] at takes
  have laid := laid.rely area ownDestination rely
  have stands := (rely.own _ ownTemporary).trans stands
  rcases moveFile_cases tidy laid.outgrown laid.paved named stands with ⟨receives, moves⟩ |
    ⟨refuses, cause, fails⟩
  · rw [moves]
    obtain ⟨keeps, written⟩ : footprint.Guarantee found _ ∧ _ :=
      laid.move named ownDestination ownTemporary apart kept stands takes receives
    exact ⟨keeps, fun later rely => written.rely area ownDestination ownTemporary rely⟩
  · rw [fails]
    exact ⟨.refl .., ensures_takeAway area ownDestination ownTemporary apart laid stands
      fun admits => refuses ((laid.admits_iff kept).mp admits).1⟩

include tidy named area ownDestination ownTemporary apart in
theorem ensures_replace (laid : Laid origin base tree path)
    (kept : base.get? (origin.destination path) = origin.get? (origin.destination path))
    (absent : tree.get? (unfinished origin path name) = none)
    (accepted : (directoryOf path).bytes ≠ [] → refuse (directoryOf path) = .ok ()) :
    footprint.Ensures origin (Written origin base path name content)
      (Worker.replace (spelled (directoryOf path)) path content name) tree := by
  have nonempty : unfinished origin path name ≠ [] := by simp [unfinished]
  rw [Worker.replace, Worker.andThen]
  refine Ensures.once_bind fun found rely => ?_
  have laid := laid.rely area ownDestination rely
  have absent := (rely.own _ ownTemporary).trans absent
  have created : createNamed (spelled (directoryOf path)) name found =
      .ok (unfinished origin path name)
        (found.put (unfinished origin path name) (.file ByteArray.empty)) := by
    have stands := hasDirectory_iff.mpr (laid.directory named)
    rw [createNamed, resolve_spelled named laid.outgrown laid.paved accepted]
    dsimp only
    rw [stands, ← unfinished, absent]
    rfl
  rw [created]
  obtain ⟨keeps, laid⟩ : footprint.Guarantee found
      (found.put (unfinished origin path name) (.file ByteArray.empty)) ∧ _ :=
    laid.put named ownTemporary apart (by simp [absent])
  refine ⟨keeps, ?_⟩
  dsimp only [Worker.outcome, Worker.andThen]
  rw [Worker.bind_assoc]
  refine Ensures.once_bind fun found rely => ?_
  have laid := laid.rely area ownDestination rely
  have stands : found.get? (unfinished origin path name) = some (.file ByteArray.empty) :=
    (rely.own _ ownTemporary).trans (get?_put_self nonempty)
  have putting (content : ByteArray) : footprint.Guarantee found
      (found.put (unfinished origin path name) (.file content)) ∧ _ :=
    laid.put named ownTemporary apart (by simp [stands])
  rcases fill_cases (unfinished origin path name) content found with ⟨takes, fills⟩ |
    ⟨full, part, breaks⟩
  · rw [fills]
    obtain ⟨keeps, laid⟩ := putting content
    exact ⟨keeps, ensures_move tidy named area ownDestination ownTemporary apart laid kept takes
      (get?_put_self nonempty)⟩
  · rw [breaks]
    have notAdmitted : ¬ Admits origin path content := fun admits =>
      Bool.false_ne_true (full.symm.trans ((laid.admits_iff kept).mp admits).2)
    obtain ⟨keeps, laid⟩ := putting part
    exact ⟨keeps, ensures_takeAway area ownDestination ownTemporary apart laid
      (get?_put_self nonempty) notAdmitted⟩

end Replace

/-- Writing a page comes to the same whatever others do that share the tree. -/
theorem ensures_write {page : Page} (tidy : Tidy page.output)
    (named : page.output.steps.getLast? = some (.name last))
    (area : passed (origin.startOfPath page.output) page.output.steps.dropLast ⊆ footprint.area)
    (ownDestination : origin.destination page.output ∈ footprint.own)
    (ownTemporary : unfinished origin page.output name ∈ footprint.own)
    (apart : unfinished origin page.output name ≠ origin.destination page.output)
    (wanted : footprint.wanted = wantedAbove origin page.output)
    (unwanted : unfinished origin page.output name ∉ footprint.wanted)
    (kept : base.get? (origin.destination page.output) =
      origin.get? (origin.destination page.output))
    (absent : base.get? (unfinished origin page.output name) = none)
    (view : footprint.View origin base tree) :
    footprint.Ensures origin
      (Written origin base page.output name (String.ofList page.html).toUTF8)
      (Worker.write page name) tree := by
  have vacant {found : FileTree} (view : footprint.View origin base found) :
      found.get? (unfinished origin page.output name) = none := by
    rw [(view.own _ ownTemporary).resolve_right fun made => unwanted made.1, absent]
  have place {found : FileTree} (view : footprint.View origin base found) :=
    wanted ▸ view.own _ ownDestination
  refine (ensures_makeDirectories named area (wanted ▸ List.Subset.refl _) view).bind ?_
  rintro result found ⟨view, prepared⟩
  cases result with
  | ok =>
    obtain ⟨paved, accepted⟩ := prepared
    exact ensures_replace tidy named area ownDestination ownTemporary apart
      ⟨view.outgrown.mono area, view.room, paved, place view⟩ kept (vacant view) accepted
  | error cause =>
    obtain ⟨notAdmitted, made⟩ := prepared
    refine fun later rely => Written.rely area ownDestination ownTemporary ⟨made, vacant view, ?_⟩ rely
    exact ⟨notAdmitted _, (place view).imp_right And.left⟩

end Hyperlisting.Footprint
