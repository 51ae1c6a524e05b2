import Hyperlisting.Composition.Markup
import Hyperlisting.Proofs.Composition.Sweep

/-! What of a run a composition depends on. Runs with the same ends and of the same family make the
same spans, and if they also make the same elements, the same body. -/

namespace Hyperlisting

/-- What a partition depends on: the ends and the family of a run. -/
def Run.skeleton (run : Run) : Run where
  start := run.start
  stop := run.stop
  treatment :=
    match run.category with
    | .lexical => .style []
    | .link => .anchor []

theorem Run.category_skeleton (run : Run) : run.skeleton.category = run.category := by
  unfold Run.skeleton
  cases run.category <;> rfl

namespace Composition

variable {nesting : Nesting} {table other : List Run}

def Entry.skeleton (entry : Entry) : Entry := ⟨entry.index, Run.skeleton entry.run⟩

theorem entries_map_skeleton (table : List Run) :
    entries (table.map Run.skeleton) = (entries table).map Entry.skeleton := by
  apply List.ext_getElem?
  intro i
  simp only [entries, List.getElem?_mapIdx, List.getElem?_map, Option.map_map]
  rfl

theorem covers_skeleton (start stop : Nat) (entry : Entry) :
    entry.skeleton.covers start stop = entry.covers start stop := rfl

theorem marks_skeleton (offset : Nat) (entry : Entry) :
    entry.skeleton.marks offset = entry.marks offset := rfl

theorem nestsBefore_skeleton (nesting : Nesting) (entry other : Entry) :
    entry.nestsBefore nesting other = entry.skeleton.nestsBefore nesting other.skeleton := by
  unfold Entry.nestsBefore
  simp only [Entry.skeleton, Run.category_skeleton]
  rfl

theorem spanBetween_skeleton (entries : List Entry) (start stop : Nat) :
    spanBetween nesting (entries.map Entry.skeleton) start stop =
      spanBetween nesting entries start stop := by
  have active := List.map_mergeSort (l := entries.filter (·.covers start stop))
    (f := Entry.skeleton) fun entry _ other _ => nestsBefore_skeleton nesting entry other
  simp only [spanBetween, List.filter_map, Function.comp_def, covers_skeleton, marks_skeleton,
    ← active, List.map_map]
  rfl

theorem cuts_skeleton (size : Nat) (table : List Run) :
    cuts size (table.map Run.skeleton) = cuts size table := by
  rw [cuts, List.flatMap_map]
  rfl

/-- Runs with the same skeletons make the same spans. -/
theorem spans_eq_of_skeleton (same : table.map Run.skeleton = other.map Run.skeleton)
    (nesting : Nesting) (size : Nat) :
    (partition nesting size table).spans = (partition nesting size other).spans ∧
      (partition nesting size table).trailing = (partition nesting size other).trailing := by
  have spans (table : List Run) : (partition nesting size table).spans =
      (partition nesting size (table.map Run.skeleton)).spans := by
    simp only [partition, cuts_skeleton, entries_map_skeleton, spanBetween_skeleton]
  have trailing (table : List Run) : (partition nesting size table).trailing =
      (partition nesting size (table.map Run.skeleton)).trailing := by
    simp only [partition, entries_map_skeleton, List.filter_map, Function.comp_def,
      marks_skeleton, List.map_map]
    rfl
  rw [spans table, spans other, trailing table, trailing other, same]
  exact ⟨rfl, rfl⟩

/-- Runs with the same skeletons and the same elements, each on its own page, make the same
body. -/
theorem body_partition_eq {page otherPage : Path}
    (same : table.map Run.skeleton = other.map Run.skeleton)
    (elements : table.map (·.element page) = other.map (·.element otherPage)) (nesting : Nesting)
    (source : Text) :
    (partition nesting source.byteSize table).body source page =
      (partition nesting source.byteSize other).body source otherPage := by
  obtain ⟨spans, trailing⟩ := spans_eq_of_skeleton same nesting source.byteSize
  have element : (partition nesting source.byteSize table).element page =
      (partition nesting source.byteSize other).element otherPage := by
    funext i
    have place := congrArg (·[i]?) elements
    simp only [List.getElem?_map] at place
    simp only [Composition.element, partition, List.getElem?_toArray]
    cases found : table[i]? <;> cases otherFound : other[i]? <;> simp_all
  simp only [body, markup, pieces, spanTexts, spans, trailing, element]

end Composition

end Hyperlisting
