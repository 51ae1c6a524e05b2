import Hyperlisting.Proofs.Page.Atomicity

/-! Writing a page keeps a tree sound: every entry stays in a directory, whether the page is written
or not. -/

namespace Hyperlisting

open Worker (outcome)

namespace FileTree

variable {tree after : FileTree} {path : Path} {slot : Slot} {content : ByteArray}

/-- Soundness is a matter of the entries. -/
theorem Sound.congr (sound : tree.Sound) (current : after.current = tree.current)
    (entries : ∀ location, after.get? location = tree.get? location) : after.Sound where
  above {place name} found := by
    rw [entries] at found ⊢
    exact sound.above found
  current := by
    rw [entries, current]
    exact sound.current

/-- An entry can be put into the slot of a path. -/
theorem Sound.put_slot (entry : Entry) (sound : tree.Sound)
    (found : tree.slot? path = .ok (some slot))
    (fits : tree.get? slot.location ≠ some .directory ∨ entry = .directory) :
    (tree.put slot.location entry).Sound := by
  obtain ⟨-, directory, -⟩ := slot?_some found
  refine sound.put (location_ne_nil slot) ?_ fits
  rwa [Slot.location, List.dropLast_concat]

theorem Sound.makeDirectory (sound : tree.Sound) (path : Path) :
    (outcome (FileTree.makeDirectory path tree)).2.Sound := by
  rw [makeDirectory_eq]
  split
  · exact sound
  · exact sound
  · rename_i slot found
    split
    · exact sound
    · exact sound.put_slot .directory found (.inr rfl)

theorem Replaced.sound (replaced : Replaced tree path content slot after) (sound : tree.Sound) :
    after.Sound := by
  refine (sound.put_slot (.file content) replaced.found (.inl replaced.vacant)).congr
    replaced.current fun location => ?_
  rw [replaced.entries, get?_put (location_ne_nil slot)]

end FileTree

namespace Page

open FileTree

variable {tree : FileTree}

theorem sound_prepared (page : Page) (sound : tree.Sound) : (page.prepared tree).Sound :=
  makeNested_keeps (fun path _ _ sound => sound.makeDirectory path) sound

theorem sound_write (page : Page) (sound : tree.Sound) : (outcome (page.write tree)).2.Sound := by
  have around := page.sound_prepared sound
  cases written : page.write tree with
  | ok value after =>
    obtain ⟨slot, lands⟩ := exists_lands written
    exact lands.replaced.sound around
  | error cause after =>
    obtain ⟨adds, entries⟩ := addsDirectories_of_error written
    have current := adds.current.trans (page.addsDirectories_prepared tree).current.symm
    exact around.congr current entries

theorem current_write (page : Page) (tree : FileTree) :
    (outcome (page.write tree)).2.current = tree.current := by
  cases written : page.write tree with
  | ok value after =>
    obtain ⟨slot, lands⟩ := exists_lands written
    exact lands.replaced.current.trans lands.around.current
  | error cause after => exact (addsDirectories_of_error written).1.current

end Page

end Hyperlisting
