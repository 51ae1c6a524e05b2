/-! Lists without repeats next to each other, sorted lists, lists cut where an element ends a part,
lists with one element more, and lists gone through up to the first element that fails. -/

namespace Hyperlisting.Lists

variable {α : Type}

section EraseReps

variable [BEq α]

/-- What was collected before comes out in front. -/
theorem eraseReps_loop (a : α) (list seen : List α) :
    List.eraseRepsBy.loop (· == ·) a list seen = seen.reverse ++ (a :: list).eraseReps := by
  induction list generalizing a seen with
  | nil => simp [List.eraseReps, List.eraseRepsBy, List.eraseRepsBy.loop]
  | cons b list ih =>
    simp only [List.eraseReps, List.eraseRepsBy, List.eraseRepsBy.loop] at ih ⊢
    cases a == b with
    | true => exact ih a seen
    | false => simp only [ih b (a :: seen), ih b [a], List.reverse_cons, List.append_assoc]; rfl

theorem eraseReps_cons_cons (a b : α) (list : List α) :
    (a :: b :: list).eraseReps =
      if a == b then (a :: list).eraseReps else a :: (b :: list).eraseReps := by
  change List.eraseRepsBy.loop (· == ·) a (b :: list) [] = _
  simp only [List.eraseRepsBy.loop, eraseReps_loop]
  cases a == b <;> simp

variable [LawfulBEq α]

@[simp] theorem mem_eraseReps {a : α} {list : List α} : a ∈ list.eraseReps ↔ a ∈ list := by
  cases list with
  | nil => rfl
  | cons first rest =>
    induction rest generalizing first with
    | nil => rfl
    | cons next rest ih =>
      rw [eraseReps_cons_cons]
      split
      · rename_i same
        obtain rfl := beq_iff_eq.mp same
        simp [ih]
      · simp only [List.mem_cons, ih]

/-- In an order no element comes back, so what stays is all different. -/
theorem pairwise_eraseReps {le : α → α → Prop} {list : List α}
    (antisymm : ∀ a ∈ list, ∀ b ∈ list, le a b → le b a → a = b) (sorted : list.Pairwise le) :
    list.eraseReps.Pairwise fun a b => le a b ∧ a ≠ b := by
  cases list with
  | nil => exact .nil
  | cons first rest =>
    induction rest generalizing first with
    | nil => exact List.pairwise_singleton ..
    | cons next rest ih =>
      obtain ⟨least, sorted⟩ := List.pairwise_cons.mp sorted
      obtain ⟨nextLeast, _⟩ := List.pairwise_cons.mp sorted
      have antisymmRest : ∀ a ∈ next :: rest, ∀ b ∈ next :: rest, le a b → le b a → a = b :=
        fun a aMem b bMem =>
          antisymm a (List.mem_cons_of_mem _ aMem) b (List.mem_cons_of_mem _ bMem)
      rw [eraseReps_cons_cons]
      split
      · rename_i same
        obtain rfl := beq_iff_eq.mp same
        exact ih first antisymmRest sorted
      · rename_i different
        refine List.pairwise_cons.mpr ⟨?_, ih next antisymmRest sorted⟩
        intro later mem
        have inRest : later ∈ next :: rest := mem_eraseReps.mp mem
        refine ⟨least later inRest, ?_⟩
        rintro rfl
        rcases List.mem_cons.mp inRest with same | further
        · exact different (beq_iff_eq.mpr same)
        · exact different (beq_iff_eq.mpr <| antisymm first List.mem_cons_self next
            (List.mem_cons_of_mem _ List.mem_cons_self) (least next List.mem_cons_self)
            (nextLeast first further))

end EraseReps

/-- Sorting by an order puts no element behind a greater one. -/
theorem pairwise_mergeSort_compare [Ord α] [Std.TransOrd α] (list : List α) :
    (list.mergeSort fun a b => (compare a b).isLE).Pairwise
      fun a b => (compare a b).isLE = true := by
  refine List.pairwise_mergeSort (fun _ _ _ => Std.TransCmp.isLE_trans) (fun a b => ?_) list
  have swap : compare a b = (compare b a).swap := Std.OrientedOrd.eq_swap
  rw [swap]
  cases compare b a <;> rfl

/-- What is cut from a list is made of its elements, and of none at which it is cut. -/
theorem mem_of_mem_splitOnP {ends : α → Bool} {list group : List α}
    (mem : group ∈ list.splitOnP ends) : ∀ a ∈ group, a ∈ list ∧ ends a = false := by
  induction list generalizing group with
  | nil =>
    obtain rfl : group = [] := by simpa [List.splitOnP_nil] using mem
    exact fun a none => absurd none List.not_mem_nil
  | cons first list ih =>
    rw [List.splitOnP_cons_eq_if_modifyHead] at mem
    have later : ∀ group ∈ list.splitOnP ends, ∀ a ∈ group, a ∈ first :: list ∧ ends a = false := by
      intro group mem a inGroup
      obtain ⟨inList, within⟩ := ih mem a inGroup
      exact ⟨List.mem_cons_of_mem _ inList, within⟩
    split at mem
    · rcases List.mem_cons.mp mem with rfl | mem
      · exact fun a none => absurd none List.not_mem_nil
      · exact later group mem
    · rename_i within
      obtain ⟨next, groups, split⟩ := List.exists_cons_of_ne_nil (List.splitOnP_ne_nil ends list)
      rw [split] at mem later
      rcases List.mem_cons.mp mem with rfl | mem
      · refine List.forall_mem_cons.mpr ⟨⟨List.mem_cons_self, by simpa using within⟩, ?_⟩
        exact later next List.mem_cons_self
      · exact later group (List.mem_cons_of_mem _ mem)

theorem getElem?_concat_eq_some_iff {list : List α} {a b : α} {i : Nat} :
    (list ++ [a])[i]? = some b ↔ list[i]? = some b ∨ i = list.length ∧ b = a := by
  rcases Nat.lt_trichotomy i list.length with inside | rfl | behind
  · simp [List.getElem?_append_left inside, Nat.ne_of_lt inside]
  · simp [eq_comm]
  · simp [List.getElem?_eq_none (show list.length ≤ i by omega), Nat.ne_of_gt behind,
      List.getElem?_eq_none (show (list ++ [a]).length ≤ i by simp; omega)]

/-- Where the elements that hold come first, leaving them out in front leaves them all out. -/
theorem dropWhile_eq_filter {p : α → Bool} {list : List α}
    (ordered : list.Pairwise fun a b => p b = true → p a = true) :
    list.dropWhile p = list.filter fun a => !p a := by
  induction list with
  | nil => rfl
  | cons first list ih =>
    obtain ⟨least, ordered⟩ := List.pairwise_cons.mp ordered
    rw [List.dropWhile_cons, List.filter_cons]
    cases holds : p first with
    | true => exact ih ordered
    | false =>
      have kept : (list.filter fun a => !p a) = list := by
        refine List.filter_eq_self.mpr fun a mem => ?_
        have held := least a mem
        simp_all
      simp [kept]

/-- Going through a list fails as its first element does that fails. What stands behind it plays no
part. -/
theorem forM_eq_error_iff {ε : Type} {f : α → Except ε Unit} {list : List α} {e : ε} :
    list.forM f = .error e ↔ ∃ before a after, list = before ++ a :: after ∧
      (∀ b ∈ before, f b = .ok ()) ∧ f a = .error e := by
  induction list with
  | nil => simp [List.forM, pure, Except.pure]
  | cons first list ih =>
    rw [show (first :: list).forM f = (f first >>= fun _ => list.forM f) from rfl]
    constructor
    case mp =>
      intro failed
      cases result : f first with
      | error found =>
        rw [result] at failed
        cases failed
        exact ⟨[], first, list, rfl, by simp, result⟩
      | ok =>
        rw [result] at failed
        obtain ⟨before, a, after, rfl, passed, fails⟩ := ih.mp failed
        exact ⟨first :: before, a, after, rfl, List.forall_mem_cons.mpr ⟨result, passed⟩, fails⟩
    case mpr =>
      rintro ⟨before, a, after, whole, passed, fails⟩
      cases before with
      | nil =>
        obtain ⟨rfl, rfl⟩ := List.cons.inj whole
        rw [fails]
        rfl
      | cons second before =>
        obtain ⟨rfl, rfl⟩ := List.cons.inj whole
        obtain ⟨passes, passed⟩ := List.forall_mem_cons.mp passed
        rw [passes]
        exact ih.mpr ⟨before, a, after, rfl, passed, fails⟩

end Hyperlisting.Lists
