/-!
Text as a list of characters. Offsets count bytes of the UTF-8 form, so an offset may fall inside
a character; `isBoundary` tells the offsets that do not. Cutting loses nothing
(`takeBytes_append_dropBytes`), and at a boundary the first part has the size asked for
(`byteSize_takeBytes`). Many questions about one text are answered in one pass: `marks` holds all
boundaries (`getD_marks`), and `slices` cuts one range after the other (`slices_eq_map`).
-/

namespace Hyperlisting

/-- Source text, markup and names alike. -/
abbrev Text := List Char

namespace Text

/-- The length of the UTF-8 form. -/
def byteSize (s : Text) : Nat := s.foldr (fun c size => c.utf8Size + size) 0

/-- How many characters end at or before an offset, counted on from `seen`. -/
def countWithin (seen : Nat) : Nat → Text → Nat
  | _, [] => seen
  | n, c :: s => if c.utf8Size ≤ n then countWithin (seen + 1) (n - c.utf8Size) s else seen

def takeBytes (n : Nat) (s : Text) : Text := s.take (countWithin 0 n s)

/-- What `takeBytes` leaves: the first character that ends after the offset, and all after it. -/
def dropBytes (n : Nat) (s : Text) : Text := s.drop (countWithin 0 n s)

def slice (s : Text) (start stop : Nat) : Text :=
  takeBytes (stop - start) (dropBytes start s)

/-- An offset at which a character starts or the text ends. -/
def isBoundary : Text → Nat → Bool
  | _, 0 => true
  | [], _ + 1 => false
  | c :: s, n + 1 => c.utf8Size ≤ n + 1 && isBoundary s (n + 1 - c.utf8Size)

/-- For each byte of a character whether the character starts there. -/
def byteMarks (c : Char) : List Bool := true :: List.replicate (c.utf8Size - 1) false

/-- Whether each offset is a boundary, for all offsets up to the end (`getD_marks`). -/
def marks (s : Text) : Array Bool :=
  (s.foldl (fun (marks : Array Bool) c => marks ++ byteMarks c) #[]).push true

/-- The texts of several ranges, where the cut before them was at an offset and left `rest`. A range
that starts at the last cut is taken from there, any other is looked up from the start. -/
def slicesFrom (s : Text) (offset : Nat) (rest : Text) : List (Nat × Nat) → List Text
  | [] => []
  | (start, stop) :: ranges =>
    let rest := if offset = start then rest else dropBytes start s
    takeBytes (stop - start) rest :: slicesFrom s stop (dropBytes (stop - start) rest) ranges

def slices (s : Text) (ranges : List (Nat × Nat)) : List Text := slicesFrom s 0 s ranges

/-- Decimal digits, without leading zeros. -/
def ofNat (n : Nat) : Text := Nat.toDigits 10 n

@[simp] theorem byteSize_nil : byteSize [] = 0 := rfl

@[simp] theorem byteSize_cons (c : Char) (s : Text) :
    byteSize (c :: s) = c.utf8Size + byteSize s :=
  rfl

@[simp] theorem byteSize_append (s t : Text) : byteSize (s ++ t) = byteSize s + byteSize t := by
  induction s with
  | nil => simp
  | cons c s ih => simp [ih, Nat.add_assoc]

theorem countWithin_add (seen n : Nat) (s : Text) :
    countWithin seen n s = seen + countWithin 0 n s := by
  induction s generalizing seen n with
  | nil => rfl
  | cons c s ih =>
    unfold countWithin
    split
    · rw [ih (seen + 1), ih (0 + 1)]
      omega
    · rfl

theorem countWithin_cons (n : Nat) (c : Char) (s : Text) :
    countWithin 0 n (c :: s) =
      if c.utf8Size ≤ n then countWithin 0 (n - c.utf8Size) s + 1 else 0 := by
  simp only [countWithin, countWithin_add (0 + 1), Nat.add_comm]

@[simp] theorem takeBytes_nil (n : Nat) : takeBytes n [] = [] := rfl

@[simp] theorem dropBytes_nil (n : Nat) : dropBytes n [] = [] := rfl

theorem takeBytes_cons (n : Nat) (c : Char) (s : Text) :
    takeBytes n (c :: s) =
      if c.utf8Size ≤ n then c :: takeBytes (n - c.utf8Size) s else [] := by
  rw [takeBytes, countWithin_cons]
  split <;> simp [takeBytes]

theorem dropBytes_cons (n : Nat) (c : Char) (s : Text) :
    dropBytes n (c :: s) =
      if c.utf8Size ≤ n then dropBytes (n - c.utf8Size) s else c :: s := by
  rw [dropBytes, countWithin_cons]
  split <;> simp [dropBytes]

@[simp] theorem takeBytes_append_dropBytes (n : Nat) (s : Text) :
    takeBytes n s ++ dropBytes n s = s :=
  List.take_append_drop ..

theorem byteSize_takeBytes {s : Text} {n : Nat} (boundary : isBoundary s n = true) :
    byteSize (takeBytes n s) = n := by
  induction s generalizing n with
  | nil => cases n <;> simp_all [isBoundary]
  | cons c s ih =>
    have positive := c.utf8Size_pos
    cases n with
    | zero => simp [takeBytes_cons, Nat.pos_iff_ne_zero.mp positive]
    | succ n =>
      simp only [isBoundary, Bool.and_eq_true, decide_eq_true_eq] at boundary
      obtain ⟨fits, boundary⟩ := boundary
      simp only [takeBytes_cons, if_pos fits, byteSize_cons, ih boundary]
      omega

theorem toList_foldl_byteMarks (marks : Array Bool) (s : Text) :
    (s.foldl (fun (marks : Array Bool) c => marks ++ byteMarks c) marks).toList =
      marks.toList ++ s.flatMap byteMarks := by
  induction s generalizing marks with
  | nil => simp
  | cons c s ih => simp [ih]

theorem getD_flatMap_byteMarks (s : Text) (n : Nat) :
    (s.flatMap byteMarks ++ [true])[n]?.getD false = isBoundary s n := by
  induction s generalizing n with
  | nil => cases n <;> simp [isBoundary]
  | cons c s ih =>
    have positive := c.utf8Size_pos
    cases n with
    | zero => simp [byteMarks, isBoundary]
    | succ n =>
      simp only [List.flatMap_cons, byteMarks, List.cons_append, List.append_assoc,
        List.getElem?_cons_succ, isBoundary, List.getElem?_append, List.length_replicate]
      by_cases fits : c.utf8Size ≤ n + 1
      · rw [if_neg (by omega), ← ih]
        simp [List.getElem?_append, fits, show n - (c.utf8Size - 1) = n + 1 - c.utf8Size by omega]
      · rw [if_pos (by omega)]
        simp only [List.getElem?_replicate, fits, decide_false, Bool.false_and]
        split <;> rfl

theorem getD_marks (s : Text) (n : Nat) : s.marks[n]?.getD false = s.isBoundary n := by
  rw [← getD_flatMap_byteMarks, ← Array.getElem?_toList]
  simp only [marks, Array.toList_push, toList_foldl_byteMarks, List.nil_append]

@[simp] theorem dropBytes_zero (s : Text) : dropBytes 0 s = s := by
  cases s with
  | nil => rfl
  | cons c s => simp [dropBytes_cons, Nat.pos_iff_ne_zero.mp c.utf8Size_pos]

theorem dropBytes_dropBytes {s : Text} {m : Nat} (n : Nat) (boundary : isBoundary s m = true) :
    dropBytes n (dropBytes m s) = dropBytes (m + n) s := by
  induction s generalizing m with
  | nil => simp
  | cons c s ih =>
    cases m with
    | zero => simp
    | succ m =>
      simp only [isBoundary, Bool.and_eq_true, decide_eq_true_eq] at boundary
      obtain ⟨fits, boundary⟩ := boundary
      rw [dropBytes_cons (m + 1), if_pos fits, ih boundary, dropBytes_cons (m + 1 + n),
        if_pos (by omega)]
      congr 1
      omega

theorem slicesFrom_eq_map {s : Text} {offset : Nat} {ranges : List (Nat × Nat)}
    (fit : ∀ range ∈ ranges, range.1 ≤ range.2 ∧ isBoundary s range.1 = true) :
    slicesFrom s offset (dropBytes offset s) ranges =
      ranges.map fun range => slice s range.1 range.2 := by
  induction ranges generalizing offset with
  | nil => rfl
  | cons range ranges ih =>
    obtain ⟨start, stop⟩ := range
    obtain ⟨⟨ordered, boundary⟩, fit⟩ := List.forall_mem_cons.mp fit
    have rest : (if offset = start then dropBytes offset s else dropBytes start s) =
        dropBytes start s := by
      split <;> simp_all
    rw [slicesFrom, rest, dropBytes_dropBytes _ boundary, Nat.add_sub_cancel' ordered, ih fit]
    rfl

theorem slices_eq_map {s : Text} {ranges : List (Nat × Nat)}
    (fit : ∀ range ∈ ranges, range.1 ≤ range.2 ∧ isBoundary s range.1 = true) :
    slices s ranges = ranges.map fun range => slice s range.1 range.2 := by
  rw [slices, ← slicesFrom_eq_map fit, dropBytes_zero]

end Text
end Hyperlisting
