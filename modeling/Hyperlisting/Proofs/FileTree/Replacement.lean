import Hyperlisting.Proofs.FileTree.Nested

/-! What making directories and replacing a file leave behind, in any tree. Directories that are made
add to the tree and change nothing in it, even if making them fails half way. A file is replaced as a
whole, or the tree has the entries that it had, and the unfinished file is gone in either case. -/

namespace Hyperlisting.FileTree

open Worker (outcome settled)

variable {tree after later : FileTree} {path : Path} {paths more : List Path} {content : ByteArray}

/-- Another tree has the same entries, and apart from them only directories, each of which one of some
paths leads to. -/
structure AddsDirectories (paths : List Path) (tree after : FileTree) : Prop where
  current : after.current = tree.current
  kept {location : Location} {entry : Entry} : tree.get? location = some entry →
    after.get? location = some entry
  added {location : Location} : tree.get? location = none → after.get? location ≠ none →
    after.get? location = some .directory ∧ ∃ path ∈ paths, after.resolve path = .ok location

theorem AddsDirectories.keepsWays (adds : AddsDirectories paths tree after) :
    tree.KeepsWays after where
  current := adds.current
  entry stands _ := adds.kept stands

theorem AddsDirectories.refl (paths : List Path) (tree : FileTree) :
    AddsDirectories paths tree tree where
  current := rfl
  kept := id
  added absent stands := absurd absent stands

theorem AddsDirectories.trans (adds : AddsDirectories paths tree after)
    (addsMore : AddsDirectories more after later) : AddsDirectories (paths ++ more) tree later where
  current := addsMore.current.trans adds.current
  kept := addsMore.kept ∘ adds.kept
  added {location} absent stands := by
    cases found : after.get? location with
    | none =>
      obtain ⟨made, path, mem, leads⟩ := addsMore.added found stands
      exact ⟨made, path, List.mem_append_right _ mem, leads⟩
    | some entry =>
      obtain ⟨made, path, mem, leads⟩ := adds.added absent (by simp [found])
      exact ⟨addsMore.kept made, path, List.mem_append_left _ mem,
        addsMore.keepsWays.resolve made leads⟩

theorem AddsDirectories.mono (adds : AddsDirectories paths tree after) (subset : paths ⊆ more) :
    AddsDirectories more tree after where
  current := adds.current
  kept := adds.kept
  added absent stands := by
    obtain ⟨made, path, mem, leads⟩ := adds.added absent stands
    exact ⟨made, path, subset mem, leads⟩

/-- A tree with the same entries adds the same directories. -/
theorem AddsDirectories.congr (adds : AddsDirectories paths tree after)
    (current : later.current = after.current)
    (entries : ∀ location, later.get? location = after.get? location) :
    AddsDirectories paths tree later where
  current := current.trans adds.current
  kept stands := (entries _).trans (adds.kept stands)
  added {location} absent stands := by
    rw [entries] at stands ⊢
    obtain ⟨made, path, mem, leads⟩ := adds.added absent stands
    have keeps : after.KeepsWays later := ⟨current, fun stands _ => (entries _).trans stands⟩
    exact ⟨made, path, mem, keeps.resolve made leads⟩

theorem location_ne_nil (slot : Slot) : slot.location ≠ [] := by simp [Slot.location]

/-- A directory that is put in the slot of a path is one that the path leads to. -/
theorem addsDirectories_put {slot : Slot} (found : tree.slot? path = .ok (some slot))
    (absent : tree.get? slot.location = none) :
    AddsDirectories [path] tree (tree.put slot.location .directory) where
  current := rfl
  kept := get?_put_of_absent absent
  added {other} none stands := by
    have made : (tree.put slot.location .directory).get? slot.location = some .directory := by
      rw [get?_put (location_ne_nil slot), if_pos rfl]
    rw [get?_put (location_ne_nil slot)] at stands
    split at stands
    · rename_i here
      subst here
      exact ⟨made, path, List.mem_singleton.mpr rfl,
        resolve_of_slot? ((keepsWays_put absent _).slot? found) made (by simp) (.inl rfl)⟩
    · exact absurd none stands

theorem addsDirectories_makeDirectory (path : Path) (tree : FileTree) :
    AddsDirectories [path] tree (outcome (makeDirectory path tree)).2 := by
  rw [makeDirectory_eq]
  split
  · exact .refl ..
  · exact .refl ..
  · rename_i slot found
    split
    · exact .refl ..
    · rename_i absent
      exact addsDirectories_put found (by simpa using absent)

theorem outcome_settled (path : Path) (made : EStateM.Result SystemError FileTree Unit) :
    (outcome (settled path made)).2 = (outcome made).2 := by
  cases made with
  | ok value tree => rfl
  | error cause tree =>
    cases cause with
    | alreadyExists =>
      rw [settled]
      split <;> rfl
    | _ => rfl

/-- What making a directory keeps, making nested directories keeps. -/
theorem makeNested_keeps {holds : FileTree → Prop}
    (keeps : ∀ path ∈ paths, ∀ tree, holds tree → holds (outcome (makeDirectory path tree)).2)
    (held : holds tree) : holds (outcome (makeNested paths tree)).2 := by
  induction paths generalizing tree with
  | nil => exact held
  | cons path outer ih =>
    obtain ⟨here, further⟩ := List.forall_mem_cons.mp keeps
    have attempt {tree : FileTree} (held : holds tree) :
        holds (outcome (settled path (makeDirectory path tree))).2 := by
      rw [outcome_settled]
      exact here tree held
    have first := here tree held
    have whole := attempt held
    rw [Worker.makeNested_cons]
    cases made : makeDirectory path tree with
    | ok value after => rwa [made] at whole
    | error cause after =>
      rw [made] at first whole
      cases cause with
      | notFound =>
        have around : holds (outcome (makeNested outer after)).2 := ih further first
        dsimp only
        cases makes : makeNested outer after with
        | ok value around' =>
          rw [makes] at around
          exact attempt around
        | error cause around' => rwa [makes] at around
      | _ => exact whole

/-- Making nested directories adds these directories, or the first few of them. -/
theorem addsDirectories_makeNested (paths : List Path) (tree : FileTree) :
    AddsDirectories paths tree (outcome (makeNested paths tree)).2 := by
  refine makeNested_keeps (fun path mem after adds => ?_) (.refl ..)
  exact (adds.trans (addsDirectories_makeDirectory path after)).mono (by simp [mem])

theorem makeTemporary_cases (directory : Path) (tree : FileTree) :
    (∃ cause, makeTemporary directory tree = .error cause tree) ∨
      ∃ location, tree.get? location = none ∧
        makeTemporary directory tree = .ok location (tree.put location (.file ByteArray.empty)) := by
  cases resolved : tree.resolve directory with
  | error cause =>
    have chosen : ∀ place, tree.resolve directory = .ok place → [] = tree.freshName place := by
      simp [resolved]
    rw [makeTemporary_eq chosen, createNamed, resolved]
    exact .inl ⟨cause, rfl⟩
  | ok place =>
    have chosen : ∀ other, tree.resolve directory = .ok other →
        tree.freshName place = tree.freshName other := by
      intro other same
      rw [Except.ok.inj (resolved.symm.trans same)]
    have absent := get?_freshName tree place
    rw [makeTemporary_eq chosen, createNamed, resolved]
    dsimp only
    split
    · exact .inl ⟨.notDirectory, rfl⟩
    · rw [absent]
      exact .inr ⟨_, absent, rfl⟩

/-- Where a path leads, one tree has a file instead of what another tree has there. -/
structure Replaced (tree : FileTree) (path : Path) (content : ByteArray) (slot : Slot)
    (after : FileTree) : Prop where
  found : tree.slot? path = .ok (some slot)
  closed : slot.asDirectory = false
  vacant : tree.get? slot.location ≠ some .directory
  current : after.current = tree.current
  entries (location : Location) : after.get? location =
    if slot.location = location then some (.file content) else tree.get? location

/-- How replacing a file can end. -/
inductive Replacing (tree : FileTree) (path : Path) (content : ByteArray) :
    EStateM.Result SystemError FileTree Unit → Prop
  | replaced {after : FileTree} {slot : Slot} : Replaced tree path content slot after →
      Replacing tree path content (.ok () after)
  | unchanged {after : FileTree} {cause : SystemError} : after.current = tree.current →
      (∀ location, after.get? location = tree.get? location) →
      Replacing tree path content (.error cause after)

theorem replaceFile_eq (directory path : Path) (content : ByteArray) (tree : FileTree) :
    replaceFile directory path content tree =
      match makeTemporary directory tree with
      | .error cause tree => .error cause tree
      | .ok temporary tree =>
        match (fill temporary content >>= fun () => moveFile temporary path) tree with
        | .ok () tree => .ok () tree
        | .error cause tree => .error cause (tree.erase temporary) := by
  rw [replaceFile, FileStep.bind_apply]
  cases makeTemporary directory tree with
  | error cause tree => rfl
  | ok temporary tree =>
    refine (FileStep.tryCatch_apply ..).trans ?_
    dsimp only
    cases (fill temporary content >>= fun () => moveFile temporary path) tree <;> rfl

/-- A tree with an unfinished file where another tree has nothing. -/
structure Unfinished (tree : FileTree) (temporary : Location) (content : ByteArray)
    (after : FileTree) : Prop where
  absent : tree.get? temporary = none
  current : after.current = tree.current
  entries (location : Location) : after.get? location =
    if temporary = location then some (.file content) else tree.get? location

theorem unfinished_put {temporary : Location} (absent : tree.get? temporary = none)
    (content : ByteArray) : Unfinished tree temporary content
      ((tree.put temporary (.file ByteArray.empty)).put temporary (.file content)) where
  absent := absent
  current := rfl
  entries location := by
    have nonempty := ne_nil_of_get?_eq_none absent
    rw [get?_put nonempty, get?_put nonempty]
    split <;> rfl

section Unfinished

variable {temporary : Location} {slot : Slot}
  (unfinished : Unfinished tree temporary content after)

include unfinished

/-- The unfinished file is new, and no way passes it. -/
theorem Unfinished.keepsWays : after.KeepsWays tree where
  current := unfinished.current.symm
  entry {place entry} stands notFile := by
    rw [unfinished.entries] at stands
    split at stands
    · exact absurd (Option.some.inj stands).symm (notFile content)
    · exact stands

theorem Unfinished.get?_erase (location : Location) :
    (after.erase temporary).get? location = tree.get? location := by
  rw [FileTree.get?_erase (ne_nil_of_get?_eq_none unfinished.absent), unfinished.entries]
  split
  · rename_i same
    exact same ▸ unfinished.absent.symm
  · rfl

theorem Unfinished.replaced (found : after.slot? path = .ok (some slot))
    (closed : slot.asDirectory = false)
    (vacant : after.get? slot.location ≠ some .directory) :
    Replaced tree path content slot ((after.erase temporary).put slot.location (.file content)) where
  found := unfinished.keepsWays.slot? found
  closed := closed
  vacant := by
    rw [unfinished.entries] at vacant
    split at vacant
    · rename_i same
      simp [← same, unfinished.absent]
    · exact vacant
  current := unfinished.current
  entries location := by
    rw [get?_put (location_ne_nil slot), unfinished.get?_erase]

end Unfinished

theorem replacing (directory path : Path) (content : ByteArray) (tree : FileTree) :
    Replacing tree path content (replaceFile directory path content tree) := by
  rw [replaceFile_eq]
  rcases makeTemporary_cases directory tree with ⟨cause, fails⟩ | ⟨temporary, absent, made⟩
  · rw [fails]
    exact .unchanged rfl fun _ => rfl
  · rw [made]
    dsimp only
    rw [FileStep.bind_apply]
    rcases fill_cases temporary content (tree.put temporary (.file ByteArray.empty)) with
      ⟨-, fills⟩ | ⟨-, part, breaks⟩
    · rw [fills]
      have unfinished := unfinished_put absent content
      dsimp only
      generalize (tree.put temporary (.file ByteArray.empty)).put temporary (.file content) = filled
        at unfinished ⊢
      have taken := unfinished.entries temporary
      rw [if_pos rfl] at taken
      rcases moveFile_spec taken path with ⟨slot, found, closed, vacant, moves⟩ | ⟨-, cause, fails⟩
      · rw [moves]
        exact .replaced (unfinished.replaced found closed vacant)
      · rw [fails]
        exact .unchanged unfinished.current unfinished.get?_erase
    · rw [breaks]
      have unfinished := unfinished_put absent part
      exact .unchanged unfinished.current unfinished.get?_erase

section Replaced

variable {slot : Slot} (replaced : Replaced tree path content slot after)

include replaced

/-- The new file is as good as nothing to a way that ends in a directory. -/
theorem Replaced.keepsWays_erase : after.KeepsWays (tree.erase slot.location) where
  current := replaced.current.symm
  entry {place entry} stands notFile := by
    rw [replaced.entries] at stands
    rw [get?_erase (location_ne_nil slot)]
    split at stands
    · exact absurd (Option.some.inj stands).symm (notFile content)
    · rename_i other
      rwa [if_neg other]

theorem Replaced.erase_keepsWays : (tree.erase slot.location).KeepsWays after where
  current := replaced.current
  entry {place entry} stands _ := by
    rw [get?_erase (location_ne_nil slot)] at stands
    rw [replaced.entries]
    split at stands
    · cases stands
    · rename_i other
      rwa [if_neg other]

/-- The path leads to the new file exactly when its way to the directory of the file does not need what
the file has replaced. -/
theorem Replaced.find_iff : after.find path = .ok (.file content) ↔
    (tree.erase slot.location).slot? path = .ok (some slot) := by
  constructor
  · intro finds
    obtain ⟨location, resolved, -⟩ := find_eq_ok_iff.mp finds
    obtain ⟨directory, slotted⟩ := exists_slot?_of_resolve replaced.found replaced.closed resolved
    have without := replaced.keepsWays_erase.slot? slotted
    have keeps : (tree.erase slot.location).KeepsWays tree := by
      refine ⟨rfl, fun {place entry} stands _ => ?_⟩
      rw [get?_erase (location_ne_nil slot)] at stands
      split at stands
      · cases stands
      · exact stands
    have same := (keeps.slot? without).symm.trans replaced.found
    rwa [Option.some.inj (Except.ok.inj same)] at without
  · intro without
    have stands : after.get? slot.location = some (.file content) := by
      rw [replaced.entries, if_pos rfl]
    have resolved := resolve_of_slot? (replaced.erase_keepsWays.slot? without) stands (by simp)
      (.inr replaced.closed)
    exact find_eq_ok_iff.mpr ⟨_, resolved, stands⟩

/-- Only a link that was there can have been needed. -/
theorem Replaced.find_of_unlinked
    (unlinked : ∀ target, tree.get? slot.location ≠ some (.link target)) :
    after.find path = .ok (.file content) := by
  have keeps : tree.KeepsWays (tree.erase slot.location) := by
    refine ⟨rfl, fun {place entry} stands notFile => ?_⟩
    rw [get?_erase (location_ne_nil slot), if_neg ?_]
    · exact stands
    · rintro rfl
      cases entry with
      | file content => exact notFile content rfl
      | directory => exact replaced.vacant stands
      | link target => exact unlinked target stands
  exact replaced.find_iff.mpr (keeps.slot? replaced.found)

end Replaced

end Hyperlisting.FileTree
