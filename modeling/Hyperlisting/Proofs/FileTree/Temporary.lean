import Mathlib.Data.List.Perm.Subperm
import Mathlib.Data.List.Nodup
import Hyperlisting.FileTree.Change
import Hyperlisting.Proofs.OsText
import Hyperlisting.Proofs.Text

/-! Files of new names: the name that is chosen is no entry's in its directory, and any other such
name would do. -/

namespace Hyperlisting.FileTree

variable {tree : FileTree} {directory : Location} {name : OsText} {entry : Entry}

theorem mem_children_of_get? (found : tree.get? (directory ++ [name]) = some entry) :
    (name, entry) ∈ tree.children directory := by
  refine List.mem_filterMap.mpr ⟨([name], entry), ?_, rfl⟩
  refine List.mem_filterMap.mpr ⟨(directory ++ [name], entry), ?_, by simp⟩
  exact mem_toList_of_get? (by simp) found

/-- The name of a new file is no entry's. -/
theorem get?_freshName (tree : FileTree) (directory : Location) :
    tree.get? (directory ++ [tree.freshName directory]) = none := by
  have untaken : tree.freshName directory ∉ (tree.children directory).map Prod.fst := by
    rw [freshName]
    generalize (tree.children directory).map Prod.fst = taken
    let candidate (n : Nat) : OsText := Text.utf8 (".tmp".toList ++ Text.ofNat n)
    let candidates := (List.range (taken.length + 1)).map candidate
    change (candidates.find? (!taken.contains ·)).getD (candidate 0) ∉ taken
    cases found : candidates.find? (!taken.contains ·) with
    | some name => simpa using List.find?_some found
    | none =>
      -- There are more candidates than names taken.
      have distinct : candidates.Nodup :=
        List.Nodup.map
          (fun _ _ same => Text.ofNat_injective (List.append_cancel_left (Text.utf8_injective same)))
          List.nodup_range
      have allTaken : candidates ⊆ taken := fun name mem => by
        simpa using List.find?_eq_none.mp found name mem
      have few := (List.subperm_of_subset distinct allTaken).length_le
      rw [List.length_map, List.length_range] at few
      omega
  cases found : tree.get? (directory ++ [tree.freshName directory]) with
  | none => rfl
  | some entry => exact absurd (List.mem_map_of_mem (mem_children_of_get? found)) untaken

theorem not_mem_utf8_ofNat (n : Nat) : 'h'.toUInt8 ∉ (Text.ofNat n).utf8 := by
  have digit (c : Char) (mem : c ∈ Text.ofNat n) : c.toNat ≤ 57 := by
    have digit := Text.isDigit_of_mem_ofNat mem
    rw [Char.isDigit, Bool.and_eq_true, decide_eq_true_eq, decide_eq_true_eq] at digit
    exact digit.2
  rw [Text.utf8_of_ascii fun c mem => Nat.le_trans (digit c mem) (by decide)]
  intro mem
  obtain ⟨c, mem, same⟩ := List.mem_map.mp mem
  have small := digit c mem
  have value : (UInt8.ofNat c.toNat).toNat = 104 := congrArg UInt8.toNat same
  rw [UInt8.toNat_ofNat_of_lt' (Nat.lt_of_le_of_lt small (by decide))] at value
  omega

/-- No chosen name is one that a page could have. -/
theorem not_mem_freshName (tree : FileTree) (directory : Location) :
    'h'.toUInt8 ∉ tree.freshName directory := by
  have plain (n : Nat) : 'h'.toUInt8 ∉ Text.utf8 (".tmp".toList ++ Text.ofNat n) := by
    rw [Text.utf8_append]
    intro mem
    rcases List.mem_append.mp mem with dot | digit
    · exact absurd dot (by decide)
    · exact not_mem_utf8_ofNat n digit
  rw [freshName]
  dsimp only
  cases found : List.find? _ _ with
  | none => exact plain 0
  | some name =>
    obtain ⟨n, -, rfl⟩ := List.mem_map.mp (List.mem_of_find?_eq_some found)
    exact plain n

/-- Makes an empty file of a given name in a directory, unless the name is taken, and gives its
location. -/
def createNamed (directory : Path) (name : OsText) : FileStep Location := fun tree =>
  match tree.resolve directory with
  | .error cause => .error cause tree
  | .ok place =>
    if !tree.hasDirectory place then .error .notDirectory tree
    else if (tree.get? (place ++ [name])).isSome then .error .alreadyExists tree
    else .ok (place ++ [name]) (tree.put (place ++ [name]) (.file ByteArray.empty))

theorem makeTemporary_eq {directory : Path}
    (chosen : ∀ place, tree.resolve directory = .ok place → name = tree.freshName place) :
    makeTemporary directory tree = createNamed directory name tree := by
  rw [createNamed]
  rw [makeTemporary, look_bind_apply]
  cases resolved : tree.resolve directory with
  | error cause => rfl
  | ok place =>
    have free : (tree.get? (place ++ [tree.freshName place])).isSome = false := by
      rw [get?_freshName]
      rfl
    rw [chosen place resolved]
    change (if !tree.hasDirectory place then _ else _ : FileStep Location) tree = _
    dsimp only
    cases tree.hasDirectory place with
    | false => rfl
    | true =>
      rw [free]
      rfl

end Hyperlisting.FileTree
