import Mathlib.Data.List.Basic
import Hyperlisting.Unicode.Word

/-! Sets of code points that are held as ranges. Every decimal digit is a word character. -/

namespace Hyperlisting.Unicode

/-- Ranges in order hold what one of them holds, although the search stops at the first one above. -/
theorem Ranges.contains_iff {ranges : Ranges} (wellFormed : ranges.wellFormed = true) (n : Nat) :
    ranges.contains n = true ↔ ∃ range ∈ ranges, range.1 ≤ n ∧ n ≤ range.2 := by
  induction ranges with
  | nil => simp [contains]
  | cons range ranges ih =>
    obtain ⟨first, last⟩ := range
    cases ranges with
    | nil => simp [contains]
    | cons next ranges =>
      obtain ⟨nextFirst, nextLast⟩ := next
      simp only [Ranges.wellFormed, Bool.and_eq_true, decide_eq_true_eq] at wellFormed
      obtain ⟨⟨ordered, gap⟩, later⟩ := wellFormed
      have above : contains ((nextFirst, nextLast) :: ranges) n = true → first ≤ n := by
        intro found
        simp only [contains, Bool.and_eq_true, decide_eq_true_eq] at found
        omega
      rw [contains, Bool.and_eq_true, Bool.or_eq_true, decide_eq_true_eq, decide_eq_true_eq,
        List.exists_mem_cons_iff, ← ih later]
      grind

/-- Each range of digits lies within one range of word characters. -/
theorem decimalDigitRanges_within :
    decimalDigitRanges.all (fun digits =>
      wordRanges.any fun word => word.1.ble digits.1 && digits.2.ble word.2) = true := by
  decide +kernel

variable {c : Char}

theorem isWord_of_isDecimalDigit (digit : isDecimalDigit c = true) :
    isWord c = true := by
  rw [isDecimalDigit, Ranges.contains_iff wellFormed_decimalDigitRanges] at digit
  obtain ⟨digits, mem, least, greatest⟩ := digit
  obtain ⟨word, wordMem, within⟩ :=
    List.any_eq_true.mp (List.all_eq_true.mp decimalDigitRanges_within digits mem)
  simp only [Bool.and_eq_true, Nat.ble_eq] at within
  rw [isWord, Ranges.contains_iff wellFormed_wordRanges]
  exact ⟨word, wordMem, by omega, by omega⟩

theorem isWord_eq_false_iff :
    isWord c = false ↔ isWordStart c = false ∧ isDecimalDigit c = false := by
  have digits : isDecimalDigit c = true → isWord c = true := isWord_of_isDecimalDigit
  rw [isWordStart]
  cases word : isWord c <;> cases digit : isDecimalDigit c <;> simp_all

end Hyperlisting.Unicode
