import Hyperlisting.Composition.Sweep
import Hyperlisting.Proofs.Lists

/-! The cuts of a text: 0, its size and the ends of all runs, strictly ascending. Between two
consecutive cuts no run starts or ends. -/

namespace Hyperlisting.Composition

open Hyperlisting.Lists

theorem mem_cuts {n size : Nat} {runs : List Run} :
    n ∈ cuts size runs ↔ n = 0 ∨ n = size ∨ ∃ run ∈ runs, n = run.start ∨ n = run.stop := by
  simp [cuts]

theorem cuts_ascending (size : Nat) (runs : List Run) : (cuts size runs).Pairwise (· < ·) := by
  have sorted (numbers : List Nat) :
      numbers.mergeSort.Pairwise (fun m n => decide (m ≤ n) = true) :=
    List.pairwise_mergeSort (by intros; simp_all; omega) (by intros; simp; omega) numbers
  simp only [decide_eq_true_eq] at sorted
  refine (pairwise_eraseReps (fun m _ n _ => Nat.le_antisymm) (sorted _)).imp ?_
  exact fun ⟨least, different⟩ => Nat.lt_of_le_of_ne least different

theorem exists_cuts_eq {size : Nat} {runs : List Run}
    (within : ∀ run ∈ runs, run.start ≤ size ∧ run.stop ≤ size) :
    ∃ rest, cuts size runs = 0 :: rest ∧ (0 :: rest).getLast? = some size := by
  have ascending := cuts_ascending size runs
  have zero : 0 ∈ cuts size runs := mem_cuts.mpr (.inl rfl)
  have full : size ∈ cuts size runs := mem_cuts.mpr (.inr (.inl rfl))
  have bound : ∀ n ∈ cuts size runs, n ≤ size := by
    intro n member
    rcases mem_cuts.mp member with rfl | rfl | ⟨run, mem, rfl | rfl⟩
    · exact Nat.zero_le _
    · exact Nat.le_refl _
    · exact (within run mem).1
    · exact (within run mem).2
  cases equal : cuts size runs with
  | nil => simp [equal] at zero
  | cons first rest =>
    rw [equal] at ascending zero full bound
    have first_eq : first = 0 := by
      rcases List.mem_cons.mp zero with same | later
      · exact same.symm
      · have := (List.pairwise_cons.mp ascending).1 0 later
        omega
    subst first_eq
    refine ⟨rest, rfl, ?_⟩
    obtain ⟨before, after, split⟩ := List.append_of_mem full
    cases after with
    | nil => exact List.getLast?_eq_some_iff.mpr ⟨before, split⟩
    | cons n after =>
      rw [split] at ascending bound
      have above := (List.pairwise_cons.mp (List.pairwise_append.mp ascending).2.1).1 n
        List.mem_cons_self
      have below := bound n (by simp)
      omega

end Hyperlisting.Composition
