import Hyperlisting.Proofs.FileTree.Persistence
import Hyperlisting.Proofs.Site.Worker

/-! Making nested directories in a tree of files and directories alone: nothing else is made, no entry
changes, and the path leads to a directory afterwards. -/

namespace Hyperlisting.FileTree

open Hyperlisting.Path (IsFileName)

variable {tree after later : FileTree} {place : Location} {path : Path} {name : OsText}
  {paths : List Path}

/-- A plain tree with more directories than another one, and no other change. -/
structure Widened (tree after : FileTree) : Prop where
  plain : after.Plain
  current : after.current = tree.current
  room : after.room = tree.room
  grown (place : Location) : after.get? place = tree.get? place ∨
    tree.get? place = none ∧ after.get? place = some .directory

theorem Widened.refl (plain : tree.Plain) : tree.Widened tree where
  plain := plain
  current := rfl
  room := rfl
  grown _ := .inl rfl

theorem Widened.trans (widened : tree.Widened after) (more : after.Widened later) :
    tree.Widened later where
  plain := more.plain
  current := more.current.trans widened.current
  room := more.room.trans widened.room
  grown place := by
    rcases more.grown place with same | ⟨absent, made⟩ <;>
      rcases widened.grown place with same' | ⟨absent', made'⟩
    · exact .inl (same.trans same')
    · exact .inr ⟨absent', same.trans made'⟩
    · exact .inr ⟨same'.symm.trans absent, made⟩
    · exact .inr ⟨absent', made⟩

theorem Widened.kept (widened : tree.Widened after) : tree.Kept after where
  current := widened.current
  room := widened.room
  directory {place} directory := by
    rcases widened.grown place with same | ⟨_, made⟩
    · exact same.trans directory
    · exact made
  file {place content} isFile := by
    rcases widened.grown place with same | ⟨absent, _⟩
    · exact ⟨content, same.trans isFile⟩
    · cases absent.symm.trans isFile

theorem Plain.put_directory (plain : tree.Plain) (above : tree.get? place = some .directory)
    (absent : tree.get? (place ++ [name]) = none) (fits : IsFileName name) :
    tree.Widened (tree.put (place ++ [name]) .directory) := by
  have nonempty : place ++ [name] ≠ [] := by simp
  have entries (other : Location) : (tree.put (place ++ [name]) .directory).get? other =
      if place ++ [name] = other then some .directory else tree.get? other := get?_put nonempty
  refine ⟨⟨plain.sound.put nonempty (by rwa [List.dropLast_concat]) (.inr rfl), ?_, ?_⟩, rfl, rfl, ?_⟩
  · intro other target
    rw [entries]
    split
    · simp
    · exact plain.unlinked other target
  · intro other found
    rw [entries] at found
    split at found
    · rename_i same
      subst same
      have aboveFits := plain.named (Option.ne_none_iff_exists'.mpr ⟨_, above⟩)
      exact List.forall_mem_append.mpr ⟨aboveFits, List.forall_mem_singleton.mpr fits⟩
    · exact plain.named found
  · intro other
    rw [entries]
    split
    · rename_i same
      exact .inr ⟨same ▸ absent, rfl⟩
    · exact .inl rfl

theorem makeDirectory_cases (plain : tree.Plain) (path : Path) :
    (∃ cause, makeDirectory path tree = .error cause tree) ∨
      ∃ after, makeDirectory path tree = .ok () after ∧ tree.Widened after ∧
        after.isDirectory path = true := by
  rw [makeDirectory_eq]
  split
  · exact .inl ⟨_, rfl⟩
  · exact .inl ⟨_, rfl⟩
  · rename_i slot found
    split
    · exact .inl ⟨_, rfl⟩
    · rename_i absent
      have absent : tree.get? slot.location = none := by simpa using absent
      obtain ⟨-, above, -, fits, -⟩ := slot?_some found
      have widened := plain.put_directory above absent fits
      have made : (tree.put slot.location .directory).get? slot.location = some .directory := by
        rw [get?_put (ne_nil_of_get?_eq_none absent), if_pos rfl]
      have resolved : (tree.put slot.location .directory).resolve path = .ok slot.location :=
        resolve_of_slot? ((keepsWays_put absent _).slot? found) made (by simp) (.inl rfl)
      exact .inr ⟨_, rfl, widened, isDirectory_iff.mpr (find_eq_ok_iff.mpr ⟨_, resolved, made⟩)⟩

theorem settled_ok (plain : tree.Plain)
    (settled : Worker.settled path (makeDirectory path tree) = .ok () after) :
    tree.Widened after ∧ after.isDirectory path = true := by
  rcases makeDirectory_cases plain path with ⟨cause, fails⟩ | ⟨wider, makes, widened, isDirectory⟩
  · rw [fails] at settled
    unfold Worker.settled at settled
    split at settled
    · rename_i there
      cases there
      split at settled
      · rename_i isDirectory
        cases settled
        exact ⟨.refl plain, isDirectory⟩
      · cases settled
    · cases settled
  · rw [makes] at settled
    cases settled
    exact ⟨widened, isDirectory⟩

/-- Nested directories that are made are there afterwards, the innermost included. -/
theorem makeNested_ok (plain : tree.Plain) (made : makeNested paths tree = .ok () after) :
    tree.Widened after ∧ ∀ path ∈ paths.head?, after.isDirectory path = true := by
  induction paths generalizing tree after with
  | nil =>
    cases made
    exact ⟨.refl plain, by simp⟩
  | cons path outer ih =>
    simp only [List.head?_cons, Option.mem_def, Option.some.injEq, forall_eq']
    rw [Worker.makeNested_cons] at made
    split at made
    · rename_i failed missing
      have same : failed = tree := by
        rcases makeDirectory_cases plain path with ⟨cause, fails⟩ | ⟨wider, makes, -⟩
        · cases missing.symm.trans fails
          rfl
        · cases missing.symm.trans makes
      subst same
      split at made
      · rename_i around makes
        obtain ⟨widened, -⟩ := ih plain makes
        obtain ⟨more, isDirectory⟩ := settled_ok widened.plain made
        exact ⟨widened.trans more, isDirectory⟩
      · cases made
    · exact settled_ok plain made

end Hyperlisting.FileTree
