import Mathlib.Data.List.Induction
import Hyperlisting.Proofs.Text

/-! A table of the offsets at which lines start. The line of an offset divides the table into the
starts up to the offset and those behind it, so a search of the table finds it, and the start of that
line lies as many bytes before the offset as its column says. -/

namespace Hyperlisting

namespace Text

/-- The offsets behind the line ends of a text that stands at an offset. -/
def lineStartsFrom : (offset : Nat) → Text → List Nat
  | _, [] => []
  | offset, c :: s =>
    let later := lineStartsFrom (offset + c.utf8Size) s
    if c = '\n' then (offset + 1) :: later else later

/-- The offsets at which the lines of a text start. -/
def lineStarts (s : Text) : List Nat := 0 :: lineStartsFrom 0 s

/-- The first `n` entries are those up to the offset. This is what a search that halves the table
finds, where it can find anything. -/
structure Divides (starts : List Nat) (offset n : Nat) : Prop where
  bound : n ≤ starts.length
  upTo : ∀ i start, starts[i]? = some start → i < n → start ≤ offset
  behind : ∀ i start, starts[i]? = some start → n ≤ i → offset < start

variable {s t : Text} {starts : List Nat} {offset n m : Nat}

theorem Divides.le (divides : Divides starts offset n) (other : Divides starts offset m) :
    n ≤ m := by
  refine Nat.le_of_not_lt fun less => ?_
  have found := List.getElem?_eq_getElem (Nat.lt_of_lt_of_le less divides.bound)
  have upTo := divides.upTo m _ found less
  have behind := other.behind m _ found (Nat.le_refl m)
  omega

theorem Divides.eq (divides : Divides starts offset n) (other : Divides starts offset m) : n = m :=
  Nat.le_antisymm (divides.le other) (other.le divides)

theorem lineStartsFrom_append (offset : Nat) (s t : Text) :
    lineStartsFrom offset (s ++ t) =
      lineStartsFrom offset s ++ lineStartsFrom (offset + s.byteSize) t := by
  induction s generalizing offset with
  | nil => rfl
  | cons c s ih =>
    rw [List.cons_append, lineStartsFrom, lineStartsFrom, ih, byteSize_cons, Nat.add_assoc]
    split <;> rfl

theorem lt_of_mem_lineStartsFrom {start : Nat} (mem : start ∈ lineStartsFrom offset s) :
    offset < start := by
  induction s generalizing offset with
  | nil => cases mem
  | cons c s ih =>
    have later : start ∈ lineStartsFrom (offset + c.utf8Size) s → offset < start :=
      fun mem => Nat.lt_of_le_of_lt (Nat.le_add_right ..) (ih mem)
    rw [lineStartsFrom] at mem
    split at mem
    · rcases List.mem_cons.mp mem with rfl | mem
      · exact Nat.lt_succ_self offset
      · exact later mem
    · exact later mem

theorem lineStarts_append (s t : Text) :
    lineStarts (s ++ t) = lineStarts s ++ lineStartsFrom s.byteSize t := by
  rw [lineStarts, lineStartsFrom_append, Nat.zero_add]
  rfl

/-- The table of what is before a place has an entry for each line, and the last one lies as many
bytes before the place as the column says. -/
theorem lineStarts_before (s : Text) :
    (lineStarts s).length = (Place.after s).line ∧
      (∀ start ∈ lineStarts s, start ≤ s.byteSize) ∧
      ∃ start, (lineStarts s).getLast? = some start ∧
        start + (Place.after s).column = s.byteSize := by
  induction s using List.reverseRecOn with
  | nil => exact ⟨rfl, by simp [lineStarts, lineStartsFrom], 0, rfl, rfl⟩
  | append_singleton s c ih =>
    obtain ⟨length, upTo, start, last, column⟩ := ih
    have next : Place.after (s ++ [c]) = (Place.after s).next c := by simp [Place.after]
    have size : byteSize (s ++ [c]) = byteSize s + c.utf8Size := by simp
    have earlier : ∀ start ∈ lineStarts s, start ≤ byteSize s + c.utf8Size :=
      fun start mem => Nat.le_trans (upTo start mem) (Nat.le_add_right ..)
    rw [lineStarts_append, next, size]
    by_cases ends : c = '\n'
    · subst ends
      have line : lineStartsFrom (byteSize s) ['\n'] = [byteSize s + 1] := rfl
      rw [line]
      refine ⟨by simp [Place.next, length], ?_, byteSize s + 1, by simp, rfl⟩
      intro start mem
      rcases List.mem_append.mp mem with mem | mem
      · exact earlier start mem
      · exact Nat.le_of_eq (List.mem_singleton.mp mem)
    · simp only [lineStartsFrom, ends, if_false, List.append_nil, Place.next]
      exact ⟨length, earlier, start, last, by omega⟩

/-- The line of a place, and nothing else, divides the table at its offset. -/
theorem divides_lineStarts_iff (before rest : Text) :
    Divides (lineStarts (before ++ rest)) before.byteSize n ↔ n = (Place.after before).line := by
  obtain ⟨length, upTo, -⟩ := lineStarts_before before
  have divides : Divides (lineStarts (before ++ rest)) before.byteSize (Place.after before).line := by
    rw [lineStarts_append, ← length]
    refine ⟨by simp, ?_, ?_⟩
    · intro i start found less
      rw [List.getElem?_append_left less] at found
      exact upTo start (List.mem_of_getElem? found)
    · intro i start found least
      rw [List.getElem?_append_right least] at found
      exact lt_of_mem_lineStartsFrom (List.mem_of_getElem? found)
  constructor
  · exact fun other => other.eq divides
  · rintro rfl
    exact divides

/-- There is an entry for the line of a place, and it lies as many bytes before the place as the
column says. -/
theorem getElem?_lineStarts (before rest : Text) :
    1 ≤ (Place.after before).line ∧
      ∃ start, (lineStarts (before ++ rest))[(Place.after before).line - 1]? = some start ∧
        start + (Place.after before).column = before.byteSize := by
  obtain ⟨length, -, start, last, column⟩ := lineStarts_before before
  have positive : 1 ≤ (Place.after before).line := by rw [← length]; exact Nat.le_add_left 1 _
  refine ⟨positive, start, ?_, column⟩
  rw [lineStarts_append, List.getElem?_append_left (by omega), ← length, ← last,
    List.getLast?_eq_getElem?]

end Text
end Hyperlisting
