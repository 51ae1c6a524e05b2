import Hyperlisting.Proofs.Lists
import Hyperlisting.Text.Place

/-! Cutting a text where one of its parts ends, and what a place knows of the text before it. -/

namespace Hyperlisting

namespace Text

theorem isBoundary_append (s t : Text) : isBoundary (s ++ t) s.byteSize = true := by
  induction s with
  | nil => cases t <;> rfl
  | cons c s ih =>
    have positive := c.utf8Size_pos
    obtain ⟨n, size⟩ := Nat.exists_eq_succ_of_ne_zero
      (show byteSize (c :: s) ≠ 0 by simp only [byteSize_cons]; omega)
    rw [size, List.cons_append, isBoundary, ← Nat.succ_eq_add_one, ← size, byteSize_cons,
      Nat.add_sub_cancel_left, ih]
    simp

theorem dropBytes_append (s t : Text) : dropBytes s.byteSize (s ++ t) = t := by
  induction s with
  | nil => exact dropBytes_zero t
  | cons c s ih =>
    rw [List.cons_append, dropBytes_cons, byteSize_cons, if_pos (Nat.le_add_right ..),
      Nat.add_sub_cancel_left, ih]

theorem isBoundary_byteSize (s : Text) : s.isBoundary s.byteSize = true := by
  simpa using isBoundary_append s []

theorem dropBytes_byteSize (s : Text) : s.dropBytes s.byteSize = [] := by
  simpa using dropBytes_append s []

theorem takeBytes_append (s t : Text) : takeBytes s.byteSize (s ++ t) = s := by
  have whole := takeBytes_append_dropBytes s.byteSize (s ++ t)
  rw [dropBytes_append] at whole
  exact List.append_cancel_right whole

theorem slice_append (s t u : Text) :
    slice (s ++ (t ++ u)) s.byteSize (s ++ t).byteSize = t := by
  rw [slice, dropBytes_append, byteSize_append, Nat.add_sub_cancel_left, takeBytes_append]

/-- A slice between two boundaries is what stands between them. -/
theorem exists_slice_eq {s : Text} {start stop : Nat} (ordered : start ≤ stop)
    (starts : s.isBoundary start = true) (stops : s.isBoundary stop = true) :
    ∃ before after, s = before ++ (s.slice start stop ++ after) ∧ before.byteSize = start ∧
      (before ++ s.slice start stop).byteSize = stop := by
  have rest : (s.dropBytes start).dropBytes (stop - start) = s.dropBytes stop := by
    rw [dropBytes_dropBytes _ starts, Nat.add_sub_cancel' ordered]
  have whole : s = s.takeBytes start ++ (s.slice start stop ++ s.dropBytes stop) := by
    rw [slice, ← rest, takeBytes_append_dropBytes, takeBytes_append_dropBytes]
  refine ⟨_, _, whole, byteSize_takeBytes starts, ?_⟩
  have sizes := congrArg byteSize whole
  have total := congrArg byteSize (takeBytes_append_dropBytes stop s)
  simp only [byteSize_append, byteSize_takeBytes starts, byteSize_takeBytes stops] at sizes total ⊢
  omega

/-- The offset lies behind the first byte of a character and before its end. -/
def InsideCharacter (s : Text) (n : Nat) : Prop :=
  ∃ (before : Text) (c : Char) (after : Text), s = before ++ c :: after ∧
    before.byteSize < n ∧ n < before.byteSize + c.utf8Size

theorem insideCharacter_cons {c : Char} {s : Text} {n : Nat} : InsideCharacter (c :: s) n ↔
    0 < n ∧ n < c.utf8Size ∨ c.utf8Size ≤ n ∧ InsideCharacter s (n - c.utf8Size) := by
  constructor
  · rintro ⟨before, d, after, whole, behind, within⟩
    cases before with
    | nil =>
      obtain ⟨rfl, rfl⟩ := List.cons.inj whole
      exact .inl ⟨behind, by simpa using within⟩
    | cons first before =>
      obtain ⟨rfl, rfl⟩ := List.cons.inj whole
      rw [byteSize_cons] at behind within
      refine .inr ⟨by omega, before, d, after, rfl, ?_, ?_⟩ <;> omega
  · rintro (⟨behind, within⟩ | ⟨bound, before, d, after, rfl, behind, within⟩)
    · exact ⟨[], c, s, rfl, behind, by simpa using within⟩
    · refine ⟨c :: before, d, after, rfl, ?_, ?_⟩ <;> rw [byteSize_cons] <;> omega

/-- Every offset of a text is a boundary or lies inside a character. -/
theorem insideCharacter_iff {s : Text} {n : Nat} (bound : n ≤ s.byteSize) :
    s.InsideCharacter n ↔ s.isBoundary n = false := by
  induction s generalizing n with
  | nil =>
    obtain rfl : n = 0 := Nat.le_zero.mp bound
    refine iff_of_false ?_ (by simp [isBoundary])
    rintro ⟨before, c, after, whole, _⟩
    simp at whole
  | cons c s ih =>
    rw [byteSize_cons] at bound
    rw [insideCharacter_cons]
    cases n with
    | zero =>
      have positive := c.utf8Size_pos
      refine iff_of_false ?_ (by simp [isBoundary])
      omega
    | succ n =>
      rw [isBoundary, ih (by omega)]
      by_cases fits : c.utf8Size ≤ n + 1
      · simp [fits, Nat.not_lt.mpr fits]
      · simp [fits, Nat.lt_of_not_le fits]

theorem byteSize_pos {s : Text} (nonempty : s ≠ []) : 0 < s.byteSize := by
  obtain ⟨c, s, rfl⟩ := List.exists_cons_of_ne_nil nonempty
  have positive := c.utf8Size_pos
  rw [byteSize_cons]
  omega

/-- Of two parts at the start of a text, one that has no more bytes is a part of the other. -/
theorem exists_append_of_byteSize_le {s t u v : Text} (whole : s ++ t = u ++ v)
    (fits : s.byteSize ≤ u.byteSize) : ∃ left, u = s ++ left ∧ t = left ++ v := by
  rcases List.append_eq_append_iff.mp whole with within | ⟨excess, rfl, rfl⟩
  · exact within
  · cases excess with
    | nil => exact ⟨[], by simp, rfl⟩
    | cons c excess =>
      have positive := c.utf8Size_pos
      rw [byteSize_append, byteSize_cons] at fits
      omega

theorem isDigit_of_mem_ofNat {number : Nat} {c : Char} (mem : c ∈ ofNat number) :
    c.isDigit = true :=
  Nat.isDigit_of_mem_toDigits (by decide) (by decide) mem

theorem ofNat_injective {m n : Nat} (same : ofNat m = ofNat n) : m = n := by
  have digits := congrArg (Nat.ofDigitChars 10 · 0) same
  simpa [ofNat, Nat.ofDigitChars_ten_toDigits] using digits

end Text

namespace Place

theorem line_le_after_append (before more : Text) :
    (after before).line ≤ (after (before ++ more)).line := by
  rw [line_after, line_after, List.count_append]
  omega

theorem startsLine_foldl_next (place : Place) {more : Text} (within : '\n' ∉ more)
    (solid : place.startsLine = false ∨ ∃ c ∈ more, c ≠ ' ' ∧ c ≠ '\t') :
    (more.foldl next place).startsLine = false := by
  induction more generalizing place with
  | nil => simpa using solid
  | cons c more ih =>
    obtain ⟨newline, within⟩ := not_or.mp (fun mem => within (List.mem_cons.mpr mem))
    have other : c ≠ '\n' := Ne.symm newline
    apply ih (place.next c) within
    rcases solid with ended | ⟨d, mem, shown⟩
    · exact .inl (by simp [next, ended, other])
    · rcases List.mem_cons.mp mem with rfl | later
      · exact .inl (by simp [next, other, shown])
      · exact .inr ⟨d, later, shown⟩

/-- Behind something other than blanks and tabs nothing starts the line any more. -/
theorem startsLine_after_append {before more : Text} {c : Char} (mem : c ∈ more)
    (shown : c ≠ ' ' ∧ c ≠ '\t') (sameLine : (after (before ++ more)).line = (after before).line) :
    (after (before ++ more)).startsLine = false := by
  rw [after, foldl_next_append]
  refine startsLine_foldl_next _ ?_ (.inr ⟨c, mem, shown⟩)
  rw [line_after, line_after, List.count_append] at sameLine
  exact List.count_eq_zero.mp (by omega)

end Place

end Hyperlisting
