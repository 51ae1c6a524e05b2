import Hyperlisting.Proofs.Composition.Fidelity

/-! Runs in another order. The place of a run in the table breaks the last ties of nesting and orders
the markers at one offset. Where there are no such ties, the same runs in any order make the same
markup: only the places in the table are others. -/

namespace Hyperlisting

open Markup

variable {source : Text} {run other : Run} {runs shuffled table reordered : List Run}
  {nesting : Nesting} {c : Composition} {page : Path}

/-- A span with its runs at other places of the table. -/
def Span.relocate (place : Nat → Nat) (span : Span) : Span :=
  { span with active := span.active.map place, markers := span.markers.map place }

namespace Run

/-- Paths in a destination are told apart by their components. -/
def sameAs (run other : Run) : Bool := run.repeats other && run.tooltip == other.tooltip

/-- Two runs over one range are the same run, or they are not empty and of different categories, of
which one nests outside the other. -/
def Untied (runs : List Run) : Prop :=
  ∀ run ∈ runs, ∀ other ∈ runs, run.start = other.start → run.stop = other.stop →
    run.sameAs other = true ∨ run.isEmpty = false ∧ run.category ≠ other.category

instance (runs : List Run) : Decidable (Untied runs) :=
  inferInstanceAs (Decidable (∀ run ∈ runs, ∀ other ∈ runs, run.start = other.start →
    run.stop = other.stop →
      run.sameAs other = true ∨ run.isEmpty = false ∧ run.category ≠ other.category))

theorem ends_of_repeats (repeats : run.repeats other = true) :
    run.start = other.start ∧ run.stop = other.stop := by
  simp only [Run.repeats, Bool.and_eq_true, beq_iff_eq] at repeats
  exact repeats.1

theorem category_of_repeats (repeats : run.repeats other = true) :
    run.category = other.category := by
  obtain ⟨start, stop, treatment, tooltip⟩ := run
  obtain ⟨start', stop', treatment', tooltip'⟩ := other
  cases treatment <;> cases treatment' <;>
    simp_all [Run.repeats, Treatment.sameAs, category, Treatment.category]

/-- Where nothing is tied, what repeats a run is the same run. -/
theorem sameAs_of_repeats (untied : Untied runs) (mem : run ∈ runs) (otherMem : other ∈ runs)
    (repeats : run.repeats other = true) : run.sameAs other = true := by
  obtain ⟨start, stop⟩ := ends_of_repeats repeats
  rcases untied run mem other otherMem start stop with same | ⟨_, different⟩
  · exact same
  · exact absurd (category_of_repeats repeats) different

end Run

theorem Href.relative_of_sameAs {destination target : Destination}
    (same : destination.sameAs target = true) (page : Path) :
    relative page destination = relative page target := by
  simp only [Destination.sameAs, Bool.and_eq_true, Path.sameAs_iff, beq_iff_eq] at same
  obtain ⟨components, fragment⟩ := same
  have own : destination.page.sameAs page = target.page.sameAs page := by
    rw [Path.sameAs, Path.sameAs, components]
  have way (directory : Path) :
      destination.page.relativeTo directory = target.page.relativeTo directory := by
    rw [Path.relativeTo, Path.relativeTo, components]
  rw [relative, relative, own, way, fragment]

theorem Run.element_of_sameAs (same : run.sameAs other = true) (page : Path) :
    run.element page = other.element page := by
  obtain ⟨start, stop, treatment, tooltip⟩ := run
  obtain ⟨start', stop', treatment', tooltip'⟩ := other
  simp only [sameAs, Run.repeats, Bool.and_eq_true, beq_iff_eq] at same
  obtain ⟨⟨_, treated⟩, rfl⟩ := same
  cases treatment with
  | style className =>
    cases treatment' with
    | style name =>
      obtain rfl : className = name := by simpa [Treatment.sameAs] using treated
      rfl
    | link target | anchor id => cases treated
  | link destination =>
    cases treatment' with
    | link target => simp only [element, Href.relative_of_sameAs treated]
    | style name | anchor id => cases treated
  | anchor id =>
    cases treatment' with
    | anchor id' =>
      obtain rfl : id = id' := by simpa [Treatment.sameAs] using treated
      rfl
    | style name | link target => cases treated

namespace Composition

/-- The place in a table of the first run that repeats a run. -/
def placeOf (table : List Run) (run : Run) : Nat := table.findIdx (·.repeats run)

theorem exists_placeOf (mem : run ∈ runs) :
    ∃ kept, (distinct runs)[placeOf (distinct runs) run]? = some kept ∧
      kept.repeats run = true := by
  have bound : placeOf (distinct runs) run < (distinct runs).length :=
    List.findIdx_lt_length_of_exists (exists_kept mem)
  exact ⟨_, List.getElem?_eq_getElem bound,
    List.findIdx_getElem (p := fun kept : Run => kept.repeats run) (w := bound)⟩

theorem placeOf_eq {i : Nat} (apart : table.Pairwise fun run later => run.repeats later = false)
    (found : table[i]? = some other) (repeats : other.repeats run = true) :
    placeOf table run = i := by
  obtain ⟨bound, rfl⟩ := List.getElem?_eq_some_iff.mp found
  refine (List.findIdx_eq bound).mpr ⟨repeats, fun j before => ?_⟩
  by_contra repeated
  rw [Bool.not_eq_false] at repeated
  have both := Run.repeats_trans repeated (Run.repeats_comm .. ▸ repeats)
  rw [List.pairwise_iff_getElem.mp apart j i (Nat.lt_trans before bound) bound before] at both
  cases both

/-- A table holds the runs of another one, each at a new place. -/
structure Reorders (place : Nat → Nat) (table reordered : List Run) : Prop where
  there {i : Nat} {run : Run} : table[i]? = some run →
    ∃ same, reordered[place i]? = some same ∧ run.sameAs same = true
  back {j : Nat} {run : Run} : reordered[j]? = some run → ∃ i < table.length, place i = j
  injective {i j : Nat} : i < table.length → j < table.length → place i = place j → i = j

/-- The new place of what stands at a place of a table. -/
def newPlace (table reordered : List Run) (i : Nat) : Nat :=
  (table[i]?.map (placeOf reordered)).getD i

theorem newPlace_eq {i : Nat} (found : table[i]? = some run) :
    newPlace table reordered i = placeOf reordered run := by
  rw [newPlace, found]
  rfl

theorem reorders_of_perm (perm : runs.Perm shuffled) (untied : Run.Untied runs) :
    Reorders (newPlace (distinct runs) (distinct shuffled)) (distinct runs)
      (distinct shuffled) where
  there {i run} found := by
    have mem := mem_of_mem_distinct (List.mem_of_getElem? found)
    obtain ⟨kept, atPlace, repeats⟩ := exists_placeOf (perm.mem_iff.mp mem)
    have keptMem := perm.mem_iff.mpr (mem_of_mem_distinct (List.mem_of_getElem? atPlace))
    rw [newPlace_eq found]
    exact ⟨kept, atPlace,
      Run.sameAs_of_repeats untied mem keptMem (Run.repeats_comm .. ▸ repeats)⟩
  back {j run} found := by
    have mem := perm.mem_iff.mpr (mem_of_mem_distinct (List.mem_of_getElem? found))
    obtain ⟨kept, atPlace, repeats⟩ := exists_placeOf mem
    refine ⟨_, (List.getElem?_eq_some_iff.mp atPlace).1, ?_⟩
    rw [newPlace_eq atPlace]
    exact placeOf_eq (pairwise_distinct shuffled) found (Run.repeats_comm .. ▸ repeats)
  injective {i j} bound bound' same := by
    have mem := perm.mem_iff.mp (mem_of_mem_distinct (List.getElem_mem bound))
    have mem' := perm.mem_iff.mp (mem_of_mem_distinct (List.getElem_mem bound'))
    obtain ⟨kept, atPlace, repeats⟩ := exists_placeOf mem
    obtain ⟨kept', atPlace', repeats'⟩ := exists_placeOf mem'
    rw [newPlace_eq (List.getElem?_eq_getElem bound),
      newPlace_eq (List.getElem?_eq_getElem bound')] at same
    rw [same] at atPlace
    obtain rfl := Option.some.inj (atPlace.symm.trans atPlace')
    -- both places hold a run that the same kept run repeats, and the table repeats none
    have both := Run.repeats_trans (Run.repeats_comm .. ▸ repeats) repeats'
    have own := placeOf_eq (pairwise_distinct runs) (List.getElem?_eq_getElem bound) both
    exact own.symm.trans (placeOf_eq (pairwise_distinct runs) (List.getElem?_eq_getElem bound')
      (Run.repeats_refl _))

variable {place : Nat → Nat}

/-- Where nothing is tied, no two runs of a table are tied. -/
theorem eq_of_untied (untied : Run.Untied runs) {i j : Nat}
    (found : (distinct runs)[i]? = some run) (found' : (distinct runs)[j]? = some other)
    (start : run.start = other.start) (stop : run.stop = other.stop)
    (tied : run.isEmpty = true ∨ run.category = other.category) : i = j := by
  have mem := mem_of_mem_distinct (List.mem_of_getElem? found)
  have mem' := mem_of_mem_distinct (List.mem_of_getElem? found')
  have same : run.sameAs other = true := by
    refine (untied run mem other mem' start stop).resolve_right fun ⟨nonempty, different⟩ => ?_
    rcases tied with empty | alike
    · simp [nonempty] at empty
    · exact different alike
  have repeats : run.repeats other = true := (Bool.and_eq_true_iff.mp same).1
  have own := placeOf_eq (pairwise_distinct runs) found repeats
  exact own.symm.trans (placeOf_eq (pairwise_distinct runs) found' (Run.repeats_refl other))

theorem category_eq_of_rank_eq {category category' : Category}
    (same : nesting.rank category = nesting.rank category') : category = category' := by
  cases nesting <;> cases category <;> cases category' <;> first | rfl | cases same

/-- Runs keep their order of nesting: where nothing is tied, the place in the table never decides. -/
theorem Reorders.precedes (reorders : Reorders place (distinct runs) reordered)
    (untied : Run.Untied runs) {i j : Nat} (before : Precedes nesting (distinct runs) i j) :
    Precedes nesting reordered (place i) (place j) := by
  obtain ⟨run, other, found, found', order⟩ := before
  obtain ⟨same, atPlace, alike⟩ := reorders.there found
  obtain ⟨same', atPlace', alike'⟩ := reorders.there found'
  have repeats := (Bool.and_eq_true_iff.mp alike).1
  have repeats' := (Bool.and_eq_true_iff.mp alike').1
  obtain ⟨start, stop⟩ := Run.ends_of_repeats repeats
  obtain ⟨start', stop'⟩ := Run.ends_of_repeats repeats'
  refine ⟨same, same', atPlace, atPlace', ?_⟩
  rw [← Run.category_of_repeats repeats, ← Run.category_of_repeats repeats', ← start, ← stop,
    ← start', ← stop']
  rcases order with rank | ⟨rank, earlier | ⟨together, longer | ⟨covering, less⟩⟩⟩
  · exact .inl rank
  · exact .inr ⟨rank, .inl earlier⟩
  · exact .inr ⟨rank, .inr ⟨together, .inl longer⟩⟩
  · have one := eq_of_untied untied found found' together covering
      (.inr (category_eq_of_rank_eq rank))
    omega

/-- The runs of which something holds that depends on their range alone are at the new places. -/
theorem Reorders.exists_iff (reorders : Reorders place table reordered) {holds : Run → Prop}
    (ranged : ∀ run other : Run, run.start = other.start → run.stop = other.stop →
      holds run → holds other) {j : Nat} :
    (∃ run, reordered[j]? = some run ∧ holds run) ↔
      ∃ i, (∃ run, table[i]? = some run ∧ holds run) ∧ place i = j := by
  constructor
  · rintro ⟨run, found, holding⟩
    obtain ⟨i, bound, rfl⟩ := reorders.back found
    obtain ⟨same, atPlace, alike⟩ := reorders.there (List.getElem?_eq_getElem bound)
    obtain rfl := Option.some.inj (found.symm.trans atPlace)
    obtain ⟨start, stop⟩ := Run.ends_of_repeats (Bool.and_eq_true_iff.mp alike).1
    exact ⟨i, ⟨_, List.getElem?_eq_getElem bound, ranged _ _ start.symm stop.symm holding⟩, rfl⟩
  · rintro ⟨i, ⟨run, found, holding⟩, rfl⟩
    obtain ⟨same, atPlace, alike⟩ := reorders.there found
    obtain ⟨start, stop⟩ := Run.ends_of_repeats (Bool.and_eq_true_iff.mp alike).1
    exact ⟨same, atPlace, ranged _ _ start stop holding⟩

theorem Reorders.active_eq (reorders : Reorders place (distinct runs) reordered)
    (untied : Run.Untied runs) (start stop : Nat) :
    (spanBetween nesting (entries reordered) start stop).active =
      (spanBetween nesting (entries (distinct runs)) start stop).active.map place := by
  refine List.Pairwise.eq_of_mem_iff (active_pairwise nesting reordered start stop)
    (List.pairwise_map.mpr ((active_pairwise nesting (distinct runs) start stop).imp
      (reorders.precedes untied))) fun j => ?_
  simp only [mem_active, List.mem_map]
  apply reorders.exists_iff
  rintro run other starts stops ⟨nonempty, covering⟩
  exact ⟨by simpa [Run.isEmpty, starts, stops] using nonempty, starts ▸ stops ▸ covering⟩

/-- Where nothing is tied, at most one run is empty at an offset. -/
theorem pairwise_markersAt (untied : Run.Untied runs) (offset : Nat) :
    (markersAt (distinct runs) offset).Pairwise fun _ _ => False := by
  refine List.Pairwise.imp_of_mem ?_ (markersAt_ascending (distinct runs) offset)
  intro i j mem mem' less
  obtain ⟨run, found, empty, starts⟩ := mem_markersAt.mp mem
  obtain ⟨other, found', empty', starts'⟩ := mem_markersAt.mp mem'
  have stop : run.stop = other.stop := by
    have ends : run.start = run.stop := by simpa [Run.isEmpty] using empty
    have ends' : other.start = other.stop := by simpa [Run.isEmpty] using empty'
    omega
  have one := eq_of_untied untied found found' (starts.trans starts'.symm) stop (.inl empty)
  omega

theorem Reorders.markersAt_eq (reorders : Reorders place (distinct runs) (distinct shuffled))
    (untied : Run.Untied runs) (shuffledUntied : Run.Untied shuffled) (offset : Nat) :
    markersAt (distinct shuffled) offset = (markersAt (distinct runs) offset).map place := by
  have irrefl : Std.Irrefl fun _ _ : Nat => False := ⟨fun _ => id⟩
  have antisymm : Std.Antisymm fun _ _ : Nat => False := ⟨fun _ _ => False.elim⟩
  refine List.Pairwise.eq_of_mem_iff (pairwise_markersAt shuffledUntied offset)
    (List.pairwise_map.mpr (pairwise_markersAt untied offset)) fun j => ?_
  simp only [mem_markersAt, List.mem_map]
  apply reorders.exists_iff
  rintro run other starts stops ⟨empty, here⟩
  exact ⟨by simpa [Run.isEmpty, starts, stops] using empty, starts ▸ here⟩

theorem cuts_eq_of_perm (perm : runs.Perm shuffled) (size : Nat) :
    cuts size (distinct shuffled) = cuts size (distinct runs) := by
  refine List.Pairwise.eq_of_mem_iff (r := (· < ·)) (cuts_ascending ..) (cuts_ascending ..)
    fun n => ?_
  simp only [mem_cuts_distinct, perm.mem_iff]

/-- The same runs in another order make the same spans, with each run at its new place. -/
theorem partition_eq_of_perm (perm : runs.Perm shuffled) (untied : Run.Untied runs)
    (nesting : Nesting) (size : Nat) :
    let place := newPlace (distinct runs) (distinct shuffled)
    (partition nesting size (distinct shuffled)).spans =
        (partition nesting size (distinct runs)).spans.map (Span.relocate place) ∧
      (partition nesting size (distinct shuffled)).trailing =
        (partition nesting size (distinct runs)).trailing.map place := by
  have reorders := reorders_of_perm perm untied
  have shuffledUntied : Run.Untied shuffled := by simpa [Run.Untied, perm.mem_iff] using untied
  have markers := reorders.markersAt_eq untied shuffledUntied
  constructor
  · simp only [partition, cuts_eq_of_perm perm, List.map_map]
    apply List.map_congr_left
    rintro ⟨start, stop⟩ _
    have active : (spanBetween nesting (entries (distinct shuffled)) start stop).active = _ :=
      reorders.active_eq untied start stop
    have here := markers start
    rw [← map_index_filter_marks, ← map_index_filter_marks] at here
    exact congrArg₂ (fun active markers => (⟨start, stop, active, markers⟩ : Span)) active here
  · rw [trailing_partition, trailing_partition, markers]

variable {element relocated : Nat → Element} {size : Nat}

/-- Of the places below a bound no two become one, and each keeps its element. -/
structure Relocates (place : Nat → Nat) (size : Nat) (element relocated : Nat → Element) :
    Prop where
  injective {i j : Nat} : i < size → j < size → place i = place j → i = j
  element {i : Nat} : i < size → relocated (place i) = element i

theorem Relocates.map_eq {α : Type} (relocates : Relocates place size element relocated)
    {places : List Nat} (known : ∀ i ∈ places, i < size) (piece : Element → α) :
    (places.map place).map (fun i => piece (relocated i)) =
      places.map fun i => piece (element i) := by
  rw [List.map_map]
  exact List.map_congr_left fun i mem => congrArg piece (relocates.element (known i mem))

theorem Relocates.reopening (relocates : Relocates place size element relocated)
    {opened wanted : List Nat} (known : ∀ i ∈ opened, i < size)
    (wantedKnown : ∀ i ∈ wanted, i < size) :
    (opened.map place).reverse.map (Piece.closing <| relocated ·) ++
        (wanted.map place).map (Piece.opening <| relocated ·) =
      opened.reverse.map (Piece.closing <| element ·) ++
        wanted.map (Piece.opening <| element ·) := by
  have reversed : ∀ i ∈ opened.reverse, i < size := fun i mem => known i (List.mem_reverse.mp mem)
  rw [← List.map_reverse, relocates.map_eq reversed, relocates.map_eq wantedKnown]

theorem Relocates.transition_eq (relocates : Relocates place size element relocated)
    {opened wanted : List Nat} (known : ∀ i ∈ opened, i < size)
    (wantedKnown : ∀ i ∈ wanted, i < size) :
    transition relocated (opened.map place) (wanted.map place) =
      transition element opened wanted := by
  fun_induction transition element opened wanted with
  | case1 opened a wanted ih =>
    rw [List.map_cons, List.map_cons, transition, if_pos rfl]
    exact ih (List.forall_mem_cons.mp known).2 (List.forall_mem_cons.mp wantedKnown).2
  | case2 a opened b wanted different =>
    have apart : place a ≠ place b := fun same => different
      (relocates.injective (known a List.mem_cons_self) (wantedKnown b List.mem_cons_self) same)
    rw [List.map_cons, List.map_cons, transition, if_neg apart, ← List.map_cons, ← List.map_cons]
    exact relocates.reopening known wantedKnown
  | case3 opened wanted shape =>
    have reopened := relocates.reopening known wantedKnown
    cases opened with
    | nil => simpa [transition] using reopened
    | cons a opened =>
      cases wanted with
      | nil => simpa [transition] using reopened
      | cons b wanted => exact absurd rfl (shape a opened b wanted rfl)

theorem Relocates.empties_eq (relocates : Relocates place size element relocated)
    {places : List Nat} (known : ∀ i ∈ places, i < size) :
    (places.map place).flatMap (Piece.empty <| relocated ·) =
      places.flatMap (Piece.empty <| element ·) := by
  rw [List.flatMap_map]
  exact List.flatMap_congr fun i mem => congrArg Piece.empty (relocates.element (known i mem))

theorem Relocates.spanPieces_eq (relocates : Relocates place size element relocated)
    {opened : List Nat} {spans : List (Span × Text)} (known : ∀ i ∈ opened, i < size)
    (active : ∀ first ∈ spans, ∀ i ∈ first.1.active, i < size)
    (markers : ∀ first ∈ spans, ∀ i ∈ first.1.markers, i < size) :
    spanPieces relocated (opened.map place)
        (spans.map fun (span, text) => (span.relocate place, text)) =
      spanPieces element opened spans := by
  induction spans generalizing opened with
  | nil => exact relocates.transition_eq known fun _ none => absurd none List.not_mem_nil
  | cons first spans ih =>
    obtain ⟨span, text⟩ := first
    obtain ⟨here, laterActive⟩ := List.forall_mem_cons.mp active
    obtain ⟨marked, laterMarkers⟩ := List.forall_mem_cons.mp markers
    rw [List.map_cons, spanPieces, spanPieces, ← ih here laterActive laterMarkers,
      ← relocates.transition_eq known here, ← relocates.empties_eq marked]
    rfl

/-- A composition that is another one with its runs at other places has the other one's markup. -/
theorem Relocates.markup_eq {relocated : Composition} (fits : c.Fits source)
    (relocatedFits : relocated.Fits source)
    (relocates : Relocates place c.runs.size (c.element page) (relocated.element page))
    (spans : relocated.spans = c.spans.map (Span.relocate place))
    (trailing : relocated.trailing = c.trailing.map place) :
    relocated.markup source page = c.markup source page := by
  have texts : relocated.spanTexts source =
      (c.spanTexts source).map fun (span, text) => (span.relocate place, text) := by
    rw [relocatedFits.spanTexts_eq, fits.spanTexts_eq, spans]
    simp [Span.relocate, Function.comp_def]
  have none : ∀ i ∈ ([] : List Nat), i < c.runs.size := fun _ none => absurd none List.not_mem_nil
  have active : ∀ first ∈ c.spanTexts source, ∀ i ∈ first.1.active, i < c.runs.size := by
    rw [fits.spanTexts_eq, List.forall_mem_map]
    exact fits.active
  have markers : ∀ first ∈ c.spanTexts source, ∀ i ∈ first.1.markers, i < c.runs.size := by
    rw [fits.spanTexts_eq, List.forall_mem_map]
    exact fits.markers
  have pieces := relocates.spanPieces_eq none active markers
  rw [markup, markup, Composition.pieces, Composition.pieces, texts, trailing,
    relocates.empties_eq fits.trailing]
  exact congrArg (fun front => print (front ++ _)) pieces

theorem relocates_of_perm (perm : runs.Perm shuffled) (untied : Run.Untied runs)
    (nesting : Nesting) (size : Nat) (page : Path) :
    Relocates (newPlace (distinct runs) (distinct shuffled)) (distinct runs).length
      ((partition nesting size (distinct runs)).element page)
      ((partition nesting size (distinct shuffled)).element page) where
  injective := (reorders_of_perm perm untied).injective
  element {i} bound := by
    have found : (distinct runs)[i]? = some (distinct runs)[i] := List.getElem?_eq_getElem bound
    obtain ⟨same, atPlace, alike⟩ := (reorders_of_perm perm untied).there found
    simp only [Composition.element, partition, List.getElem?_toArray, atPlace, found]
    exact (Run.element_of_sameAs alike page).symm

/-- Runs of which no two are tied make the same markup in every order. -/
theorem markup_eq_of_perm (composed : compose source runs nesting = .ok c)
    (untied : Run.Untied runs) (perm : runs.Perm shuffled) (page : Path) :
    ∃ c', compose source shuffled nesting = .ok c' ∧
      c'.markup source page = c.markup source page := by
  have fits := fits_of_compose composed
  obtain ⟨checked, rfl⟩ := compose_eq_ok_iff.mp composed
  have shuffledChecked : ∀ run ∈ shuffled, run.check source = .ok () :=
    fun run mem => checked run (perm.mem_iff.mpr mem)
  have shuffledComposed : compose source shuffled nesting =
      .ok (partition nesting source.byteSize (distinct shuffled)) :=
    compose_eq_ok_iff.mpr ⟨shuffledChecked, rfl⟩
  obtain ⟨spans, trailing⟩ := partition_eq_of_perm perm untied nesting source.byteSize
  exact ⟨_, shuffledComposed, Relocates.markup_eq fits (fits_of_compose shuffledComposed)
    (relocates_of_perm perm untied nesting source.byteSize page) spans trailing⟩

/-- A highlight with a link over the same range, an empty run inside both, and the link once more with
its page spelled differently. -/
def linkedHighlight : List Run :=
  [⟨0, 2, .style "k".toList, none⟩, ⟨0, 2, .link ⟨⟨"/out/b.html".toList⟩, none⟩, none⟩,
    ⟨1, 1, .anchor "y".toList, none⟩, ⟨0, 2, .link ⟨⟨"/out//b.html".toList⟩, none⟩, none⟩]

theorem markup_eq_of_perm_linkedHighlight :
    ∃ c c', compose "abc".toList linkedHighlight .linksInnermost = .ok c ∧
      compose "abc".toList linkedHighlight.reverse .linksInnermost = .ok c' ∧
      c.spans.map Span.active = [[0, 1], [0, 1], []] ∧
      c'.markup "abc".toList ⟨"/out/a.html".toList⟩ =
        c.markup "abc".toList ⟨"/out/a.html".toList⟩ := by
  have composed : compose "abc".toList linkedHighlight .linksInnermost =
      .ok { runs := (linkedHighlight.take 3).toArray
            spans := [⟨0, 1, [0, 1], []⟩, ⟨1, 2, [0, 1], [2]⟩, ⟨2, 3, [], []⟩]
            trailing := [] } := by
    cbv
  obtain ⟨c', reversed, same⟩ := markup_eq_of_perm composed (by decide +kernel)
    (List.reverse_perm _).symm ⟨"/out/a.html".toList⟩
  exact ⟨_, c', composed, reversed, rfl, same⟩

end Composition

end Hyperlisting
