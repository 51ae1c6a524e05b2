import Hyperlisting.Proofs.Page
import Hyperlisting.Proofs.Template

/-! Documents put together. Filling a template is one pass over its text, and the document of a page
has one place for each of its parts, so whatever body and outline look like, they stand in the page
as they are. -/

namespace Hyperlisting

open Template

namespace Template

variable {before name rest tail : Text} {found : List (Text × Text)}

/-- Placeholders start with a dollar sign. -/
theorem not_opens_of_notMem (dollarless : '$' ∉ before) (rest : Text) :
    ∀ later, later <:+ before → later ≠ [] → ¬ Opens (later ++ rest) := by
  rintro later suffix nonempty ⟨name, -, starts⟩
  obtain ⟨c, later, rfl⟩ := List.exists_cons_of_ne_nil nonempty
  obtain ⟨dollar, -⟩ := List.cons_prefix_cons.mp starts
  exact dollarless (dollar ▸ suffix.subset List.mem_cons_self)

theorem Found.next_of_notMem (dollarless : '$' ∉ before) (isName : IsName name)
    (others : Found rest found tail) :
    Found (before ++ (written name ++ rest)) ((before, name) :: found) tail :=
  .next isName (not_opens_of_notMem dollarless _) others

theorem Found.none_of_notMem (dollarless : '$' ∉ tail) : Found tail [] tail := by
  refine .none fun later suffix opens => ?_
  have nonempty : later ≠ [] := by
    rintro rfl
    obtain ⟨name, -, starts⟩ := opens
    cases List.prefix_nil.mp starts
  have closed := not_opens_of_notMem dollarless [] later suffix nonempty
  rw [List.append_nil] at closed
  exact closed opens

end Template

namespace Page

def beforeTitle : Text :=
  "<!DOCTYPE html>\n<html>\n<head>\n<meta charset=\"utf-8\">\n<title>".toList

def beforeStyle : Text := "</title>\n<style type=\"text/css\">\n".toList

def beforeScript : Text := "</style>\n<script type=\"text/javascript\">\n".toList

def beforeOutline : Text :=
  "</script>\n</head>\n<body>\n<table width=\"100%\"><tr><td valign=\"top\">".toList

def beforeBody : Text := "</td><td><pre>".toList

def afterBody : Text := "</pre></td></tr></table>\n</body>\n</html>\n".toList

/-- The names of the parts, each with what stands in front of it. -/
def frame : List (Text × Text) :=
  [(beforeTitle, "title".toList), (beforeStyle, "style".toList), (beforeScript, "script".toList),
    (beforeOutline, "outline".toList), (beforeBody, "body".toList)]

/-- The html of a page. -/
def around (title outline body : Text) : Text :=
  beforeTitle ++ Markup.escape title ++ beforeStyle ++ styleSheet ++ beforeScript ++ script ++
    beforeOutline ++ outline ++ beforeBody ++ body ++ afterBody

theorem found_frame {parts : List (Text × Text)}
    (clear : ∀ part ∈ parts, '$' ∉ part.1 ∧ IsName part.2) :
    Found (parts.flatMap (fun (before, name) => before ++ written name) ++ afterBody) parts
      afterBody := by
  induction parts with
  | nil => exact .none_of_notMem (by decide)
  | cons part parts ih =>
    obtain ⟨⟨dollarless, isName⟩, clear⟩ := List.forall_mem_cons.mp clear
    have whole := Found.next_of_notMem dollarless isName (ih clear)
    simpa using whole

/-- The document has five placeholders, and none of them overlap. -/
theorem found_document : Found document.source frame afterBody := by
  have whole : document.source =
      frame.flatMap (fun (before, name) => before ++ written name) ++ afterBody := by
    decide +kernel
  rw [whole]
  exact found_frame (by decide)

/-- What a page is made of. -/
def contents (title body outline : Text) : List (Text × Slot) :=
  [("title".toList, .text title), ("style".toList, .markup styleSheet),
    ("script".toList, .markup script), ("outline".toList, .markup outline),
    ("body".toList, .markup body)]

/-- The parts go to their places, whatever they look like. -/
theorem fill_contents (title body outline : Text) :
    document.fill (contents title body outline) =
      .ok (around title outline body) := by
  have names : (contents title body outline).map Prod.fst = frame.map Prod.snd := rfl
  have distinct : ((contents title body outline).map Prod.fst).Nodup := by rw [names]; decide
  obtain ⟨shown, text, markup, filled⟩ := (fills distinct found_document).filled
    (by rw [← names]; exact fun value => List.mem_map_of_mem) (by rw [names]; exact fun name => id)
  have title := text "title".toList title (by simp [contents])
  have style := markup "style".toList styleSheet (by simp [contents])
  have script := markup "script".toList script (by simp [contents])
  have outline := markup "outline".toList outline (by simp [contents])
  have body := markup "body".toList body (by simp [contents])
  rw [filled]
  simp only [frame, around, List.flatMap_cons, List.flatMap_nil, title, style, script, outline,
    body, List.append_assoc, List.append_nil]

end Page

/-- A page is its document with the title, the outline and the body each in its place. -/
theorem Layout.assemble_eq (layout : Layout) (source : Path) (body outline : Text) :
    layout.assemble source body outline = (layout.pagePath source).map fun output =>
      ⟨source, output, Page.around source.text outline body⟩ := by
  have filled := Page.fill_contents source.text body outline
  rw [Page.contents] at filled
  rw [Layout.assemble, filled]
  cases layout.pagePath source <;> rfl

/-- Templates are filled in one pass. A value without a placeholder is refused, then the least
placeholder without a value; else the placeholders of the text make way for their values and all
other text stays, values included. So a page fails for its place only, and holds its outline and its
body as they are. -/
theorem Template.fills_once :
    (∀ (template : Template) (values : List (Text × Slot)), (values.map Prod.fst).Nodup →
      (∃ found tail, Found template.source found tail) ∧
        ∀ found tail, Found template.source found tail → Fills template values found tail) ∧
    ∀ (layout : Layout) (source : Path) (body outline : Text),
      (layout.assemble source body outline = (layout.pagePath source).map fun output =>
        ⟨source, output, Page.around source.text outline body⟩) ∧
      ∀ failure, layout.assemble source body outline = .error failure →
        failure = .outsideRoot source layout.root := by
  constructor
  · intro template values distinct
    exact ⟨exists_found template.source, fun found tail all => fills distinct all⟩
  · intro layout source body outline
    have whole := layout.assemble_eq source body outline
    refine ⟨whole, fun failure fails => ?_⟩
    cases paged : layout.pagePath source with
    | ok output => rw [whole, paged] at fails; cases fails
    | error reason =>
      rw [whole, paged] at fails
      obtain rfl := Except.error.inj fails
      exact Layout.failure_of_pagePath paged

/-- An opening that is none, and a placeholder inside it. -/
def Template.overlapping : Template := ⟨"$\x7b$\x7bx\x7d\x7d".toList⟩

/-- What is put in looks like a placeholder. -/
def Template.forgingValues : List (Text × Slot) := [("x".toList, .text "$\x7bx\x7d<".toList)]

theorem Template.fills_once_overlapping :
    (forgingValues.map Prod.fst).Nodup ∧
      Found overlapping.source [("$\x7b".toList, "x".toList)] "\x7d".toList ∧
      overlapping.fill forgingValues = .ok "$\x7b$\x7bx\x7d&lt;\x7d".toList ∧
      Layout.assemble ⟨⟨"/r".toList⟩, ⟨"/out".toList⟩⟩ ⟨"/x".toList⟩ [] [] =
        .error (.outsideRoot ⟨"/x".toList⟩ ⟨"/r".toList⟩) := by
  have isName : IsName "x".toList := by decide
  have found : Found overlapping.source [("$\x7b".toList, "x".toList)] "\x7d".toList := by
    refine @Found.next "$\x7b".toList _ _ _ _ isName ?_ (.none_of_notMem (by decide))
    intro later suffix nonempty
    rcases List.suffix_cons_iff.mp suffix with rfl | suffix
    · exact placeholder?_eq_none_iff.mp (by decide)
    rcases List.suffix_cons_iff.mp suffix with rfl | suffix
    · exact placeholder?_eq_none_iff.mp (by decide)
    · exact absurd (List.suffix_nil.mp suffix) nonempty
  have distinct : (forgingValues.map Prod.fst).Nodup := by decide
  have whole := fills_once
  obtain ⟨shown, text, -, filled⟩ :=
    ((whole.1 overlapping forgingValues distinct).2 _ _ found).filled (by decide) (by decide)
  refine ⟨distinct, found, ?_, ?_⟩
  · have escaped := text "x".toList _ List.mem_cons_self
    rw [filled]
    simp only [List.flatMap_cons, List.flatMap_nil, escaped]
    rfl
  · obtain ⟨failure, fails⟩ : ∃ failure, Layout.assemble ⟨⟨"/r".toList⟩, ⟨"/out".toList⟩⟩
        ⟨"/x".toList⟩ [] [] = .error failure := ⟨_, (whole.2 ..).1⟩
    rw [fails, (whole.2 ..).2 failure fails]

end Hyperlisting
