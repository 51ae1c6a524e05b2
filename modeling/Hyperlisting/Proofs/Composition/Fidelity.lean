import Hyperlisting.Proofs.Composition.Intervals
import Hyperlisting.Proofs.Composition.Pieces
import Hyperlisting.Proofs.Markup.Stripping
import Hyperlisting.Proofs.Text

/-! Bodies keep the text: what stands between the tags of a page, without the labels of lines, is
the source, whatever runs annotate it. -/

namespace Hyperlisting

open Markup

variable {source : Text} {runs : List Run} {nesting : Nesting} {c : Composition} {page : Path}

namespace Composition

theorem Tiles.dropBytes_eq {first last : Nat} {spans : List Span} (tiles : Tiles first spans last)
    (boundary : ∀ span ∈ spans, source.isBoundary span.start = true) :
    source.dropBytes first =
      (spans.flatMap fun span => source.slice span.start span.stop) ++ source.dropBytes last := by
  induction spans generalizing first with
  | nil =>
    obtain rfl : first = last := tiles
    rfl
  | cons span spans ih =>
    obtain ⟨rfl, less, tiles⟩ := tiles
    obtain ⟨here, later⟩ := List.forall_mem_cons.mp boundary
    have rest : (source.dropBytes span.start).dropBytes (span.stop - span.start) =
        source.dropBytes span.stop := by
      rw [Text.dropBytes_dropBytes _ here, Nat.add_sub_cancel' (Nat.le_of_lt less)]
    calc
      source.dropBytes span.start =
          source.slice span.start span.stop ++
            (source.dropBytes span.start).dropBytes (span.stop - span.start) :=
        (Text.takeBytes_append_dropBytes ..).symm
      _ = source.slice span.start span.stop ++ source.dropBytes span.stop := by rw [rest]
      _ = _ := by rw [ih tiles later, List.flatMap_cons, List.append_assoc]

theorem Tiles.start_lt_stop {first last : Nat} {spans : List Span} (tiles : Tiles first spans last) :
    ∀ span ∈ spans, span.start < span.stop := by
  induction spans generalizing first with
  | nil => exact fun span mem => absurd mem List.not_mem_nil
  | cons span spans ih =>
    obtain ⟨_, less, tiles⟩ := tiles
    exact List.forall_mem_cons.mpr ⟨less, ih tiles⟩

theorem isBoundary_of_mem_cuts (fits : ∀ run ∈ runs, run.check source = .ok ()) {n : Nat}
    (cut : n ∈ cuts source.byteSize (distinct runs)) : source.isBoundary n = true := by
  rcases mem_cuts.mp cut with rfl | rfl | ⟨run, mem, isEnd⟩
  · cases source <;> rfl
  · exact source.isBoundary_byteSize
  · obtain ⟨_, _, start, stop⟩ := Run.check_eq_ok_iff.mp (fits run (mem_of_mem_distinct mem))
    rcases isEnd with rfl | rfl
    · exact start
    · exact stop

theorem fits_of_compose (composed : compose source runs nesting = .ok c) : c.Fits source := by
  obtain ⟨fits, rfl⟩ := compose_eq_ok_iff.mp composed
  have tiles : Tiles 0 (partition nesting source.byteSize (distinct runs)).spans source.byteSize :=
    tiles_partition fits
  have inTable : ∀ {i : Nat} {run : Run}, (distinct runs)[i]? = some run →
      i < (partition nesting source.byteSize (distinct runs)).runs.size := by
    intro i run found
    simpa [partition] using (List.getElem?_eq_some_iff.mp found).1
  constructor
  case active =>
    intro span mem i active
    obtain ⟨start, _, stop, _, rfl⟩ := mem_spans_partition mem
    obtain ⟨run, found, _⟩ := mem_active.mp active
    exact inTable found
  case markers =>
    intro span mem i marker
    rw [markers_of_mem_partition mem] at marker
    obtain ⟨run, found, _⟩ := mem_markersAt.mp marker
    exact inTable found
  case trailing =>
    intro i marker
    rw [trailing_partition] at marker
    obtain ⟨run, found, _⟩ := mem_markersAt.mp marker
    exact inTable found
  case spans =>
    intro span mem
    have less := tiles.start_lt_stop span mem
    obtain ⟨start, startMem, stop, stopMem, rfl⟩ := mem_spans_partition mem
    exact ⟨Nat.le_of_lt less, isBoundary_of_mem_cuts fits startMem,
      isBoundary_of_mem_cuts fits stopMem⟩

theorem characters_of_compose (composed : compose source runs nesting = .ok c) (page : Path) :
    characters (c.pieces source page) = source := by
  have fits := fits_of_compose composed
  obtain ⟨checked, rfl⟩ := compose_eq_ok_iff.mp composed
  have slices := Tiles.dropBytes_eq (tiles_partition checked)
    fun span mem => (fits.spans span mem).2.1
  rw [Text.dropBytes_zero, Text.dropBytes_byteSize, List.append_nil] at slices
  rw [characters_pieces, fits.spanTexts_eq, List.flatMap_map]
  exact slices.symm

end Composition

theorem dropWhile_quoted {value : Text} (free : '"' ∉ value) (rest : Text) :
    (value ++ '"' :: rest).dropWhile (· != '"') = '"' :: rest := by
  have unquoted : ∀ c ∈ value, (c != '"') = true := by
    intro c mem
    rw [bne_iff_ne]
    rintro rfl
    exact free mem
  rw [List.dropWhile_append_of_pos unquoted]
  simp

/-- What begins with a quoted value begins with it up to its quote, and goes on from there. -/
theorem prefix_of_quoted {value other rest more : Text} (free : '"' ∉ value)
    (otherFree : '"' ∉ other)
    (isPrefix : value ++ '"' :: rest <+: other ++ '"' :: more) : rest <+: more := by
  obtain ⟨last, equal⟩ := isPrefix
  rw [List.append_assoc, List.cons_append] at equal
  have tails := congrArg (List.dropWhile (· != '"')) equal
  rw [dropWhile_quoted free, dropWhile_quoted otherFree] at tails
  exact ⟨last, (List.cons.inj tails).2⟩

theorem Run.openingTag_style (page : Path) (start stop : Nat) (className : Text)
    (tooltip : Option Text) :
    ((Run.mk start stop (.style className) tooltip).element page).openingTag =
      "<span class=\"".toList ++ (escapeAttribute className ++ '"' ::
        ((tooltip.toList.flatMap fun title => Attribute.print ⟨"title".toList, title⟩) ++ ['>'])) := by
  unfold Run.element Element.openingTag Attribute.print
  simp [List.flatMap_map]

theorem Run.element_unlabelled (page : Path) (run : Run) : (run.element page).Unlabelled := by
  intro rest isPrefix
  obtain ⟨start, stop, treatment, tooltip⟩ := run
  cases treatment with
  | style className =>
    have label : labelStart = "<span class=\"".toList ++
        ("lineno".toList ++ '"' :: " id=\"line-".toList) := by
      unfold labelStart
      simp
    rw [openingTag_style, label, List.append_assoc, List.append_assoc, List.cons_append] at isPrefix
    have behind := prefix_of_quoted (by decide) (quote_not_mem_escapeAttribute className)
      ((List.prefix_append_right_inj _).mp isPrefix)
    cases tooltip with
    | none => simp at behind
    | some title =>
      unfold Attribute.print at behind
      simp at behind
  | link destination =>
    unfold labelStart Run.element Element.openingTag at isPrefix
    simp at isPrefix
  | anchor id =>
    unfold labelStart Run.element Element.openingTag Attribute.print at isPrefix
    simp at isPrefix

theorem Composition.element_unlabelled (c : Composition) (page : Path) (i : Nat) :
    (c.element page i).Unlabelled := by
  unfold Composition.element
  split
  · exact Run.element_unlabelled page _
  · intro rest isPrefix
    unfold labelStart Element.openingTag at isPrefix
    simp at isPrefix

/-- The body of a page shows the source, byte for byte, whatever runs were composed with it. -/
theorem Composition.plainText_body (alike : Bool)
    (composed : Composition.compose source runs nesting = .ok c) (page : Path) :
    plainText alike (c.body source page) = source := by
  rw [body, markup, plainText_numberLines alike (c.pieces_plain source page)
    (pieces_all (c.element_unlabelled page)), characters_of_compose composed]

/-- A class that would begin a label if its quotes were not escaped, and a title with a tag. -/
def forgingRuns : List Run :=
  [⟨0, 4, .style "lineno\" id=\"line-7".toList, none⟩,
    ⟨2, 5, .anchor "line-1".toList, some "</span> <b>".toList⟩]

theorem Composition.plainText_body_forgingRuns :
    ∃ c, Composition.compose "&lt;<".toList forgingRuns .linksOutermost = .ok c ∧
      plainText true (c.body "&lt;<".toList ⟨"/out/a.html".toList⟩) = "&lt;<".toList := by
  have composed : Composition.compose "&lt;<".toList forgingRuns .linksOutermost =
      .ok { runs := forgingRuns.toArray
            spans := [⟨0, 2, [0], []⟩, ⟨2, 4, [1, 0], []⟩, ⟨4, 5, [1], []⟩]
            trailing := [] } := by
    cbv
  exact ⟨_, composed, Composition.plainText_body true composed _⟩

end Hyperlisting
