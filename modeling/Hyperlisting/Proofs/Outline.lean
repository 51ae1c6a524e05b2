import Hyperlisting.Outline
import Hyperlisting.Proofs.Listing

/-! Where the entries of an outline lead. The line of an entry's declaration is always a place on
the page; the declaration itself is one exactly if its name is looked up, so names that are keywords
or constants are listed without a place to lead to. -/

namespace Hyperlisting

open Markup Token

variable {index : Index} {layout : Layout} {file : Path} {source : Text} {nesting : Nesting}
  {declaration : Declaration} {token : Token} {c : Composition}

/-- A token stands on one of the lines of its text. -/
theorem Token.PartOf.line_mem (part : PartOf source token) :
    token.place.line ∈ List.range' 1 source.lineCount := by
  have nonempty := part.ne_nil
  obtain ⟨before, rest, rfl, place, _⟩ := part
  obtain ⟨c, text, cons⟩ := List.exists_cons_of_ne_nil nonempty
  have within := Text.count_lt_lineCount before c (text ++ rest)
  rw [place, Place.line_after, cons, List.cons_append, List.mem_range'_1]
  omega

namespace CrossReference

/-- A declaration's place to link to is on the page exactly if its name is looked up. -/
theorem SitesIn.anchor_mem_iff
    (sites : SitesIn source ((index.declarationsIn file).map Prod.snd))
    (mem : declaration ∈ (index.declarationsIn file).map Prod.snd)
    (declares : Declaration.Declares (tokenize source) token)
    (stands : declaration.StandsAt token) :
    declaration.anchor ∈ (runs index layout file source).filterMap Run.id? ↔
      IsIdentifier token := by
  constructor
  · intro named
    obtain ⟨run, isRun, id⟩ := List.mem_filterMap.mp named
    obtain ⟨other, inTokens, found⟩ := mem_runs.mp isRun
    obtain ⟨_, ⟨isName, notKeyword, notConstant⟩, idEq⟩ := sites.anchor_cases inTokens found id
    have word := (partOf_tokenize declares.mem).isName declares.isName
    have dashless : '-' ∉ token.text := fun inName => (word.ne_of_mem inName).2.2.2 rfl
    rw [stands.anchor_eq] at idEq
    obtain ⟨sameText, _⟩ := Declaration.anchorId_injective dashless idEq
    exact ⟨declares.isName, sameText ▸ notKeyword, sameText ▸ notConstant⟩
  · intro identifier
    obtain ⟨run, isRun, isAnchor, _, _⟩ := sites.exists_anchor mem stands declares.mem identifier
    exact List.mem_filterMap.mpr ⟨run, isRun, by rw [Run.id?, isAnchor]⟩

end CrossReference

namespace Outline

/-- The link of an entry marks two places: the line of the declaration and its name. -/
theorem entry_eq (declaration : Declaration) :
    ∃ before after : Text, entry declaration =
      before ++ "\" onclick=\"highlight('".toList ++ escape (lineId declaration.line) ++
        "', '".toList ++ escape declaration.anchor ++ "')\">".toList ++ after := by
  refine ⟨"<span class=\"keyword\">".toList ++ declaration.kind.label ++
    "</span> <a href=\"#".toList ++ escape (lineId declaration.line),
    escape declaration.name ++ "</a>".toList, ?_⟩
  delta entry
  dsimp only
  rw [List.append_assoc _ (escape declaration.name)]

/-- What an outline says of a file that was added once: each declaration's line is a place on the
page, and the name is one, with an anchor exactly over it, if and only if it is neither a keyword
nor a constant. -/
theorem exists_destination_iff {files : List (Path × Text)} {added : Path}
    (unique : files.filter (·.1.sameAs file) = [(added, source)]) (layout : Layout)
    (nesting : Nesting) (page : Path) :
    ∃ c, Composition.compose source (pageRuns (Index.ofFiles files) layout file source) nesting =
        .ok c ∧
      ∀ declaration ∈ (Index.ofFiles files).declarations.toList,
        declaration.file.sameAs file = true →
          (∃ before after : Text, entry declaration =
            before ++ "\" onclick=\"highlight('".toList ++ escape (lineId declaration.line) ++
              "', '".toList ++ escape declaration.anchor ++ "')\">".toList ++ after) ∧
          lineId declaration.line ∈ ids (c.body source page) ∧
          (declaration.anchor ∈ ids (c.body source page) ↔
            isKeyword declaration.name = false ∧ isConstant declaration.name = false) ∧
          ((∃ run ∈ CrossReference.runs (Index.ofFiles files) layout file source,
              run.treatment = .anchor declaration.anchor ∧ run.start = declaration.start ∧
                run.stop = declaration.stop) ↔
            isKeyword declaration.name = false ∧ isConstant declaration.name = false) := by
  obtain ⟨c, composed, whole⟩ :=
    exists_compose_pageRuns (Index.ofFiles files) layout file source nesting
  refine ⟨c, composed, ?_⟩
  intro declaration inTable sameFile
  have sites := CrossReference.sitesIn_of_unique unique
  have known : declaration ∈ ((Index.ofFiles files).declarationsIn file).map Prod.snd := by
    rw [(Index.consistent_ofFiles files).map_declarationsIn_eq]
    exact List.mem_filter.mpr ⟨inTable, sameFile⟩
  obtain ⟨token, declares, stands⟩ := sites declaration known
  have part := partOf_tokenize declares.mem
  obtain ⟨_, _, _, collected⟩ := Index.exists_of_mem_declarations inTable
  have range := Declaration.stop_eq_of_mem_collect collected
  have lookedUp : CrossReference.IsIdentifier token ↔
      isKeyword declaration.name = false ∧ isConstant declaration.name = false := by
    rw [stands.name]
    constructor
    · exact fun identifier => ⟨identifier.not_keyword, identifier.not_constant⟩
    · exact fun ⟨notKeyword, notConstant⟩ => ⟨declares.isName, notKeyword, notConstant⟩
  have listed : declaration.anchor ∈ (CrossReference.runs (Index.ofFiles files) layout file
      source).filterMap Run.id? ↔ CrossReference.IsIdentifier token :=
    sites.anchor_mem_iff known declares stands
  have named := ids_body_perm composed whole page
  refine ⟨entry_eq declaration, ?_, ?_, ?_⟩
  · rw [named.mem_iff]
    apply List.mem_append_left
    exact List.mem_map.mpr ⟨_, stands.line ▸ part.line_mem, rfl⟩
  · have notLine : declaration.anchor ∉ (List.range' 1 source.lineCount).map lineId := by
      intro isLine
      obtain ⟨number, _, same⟩ := List.mem_map.mp isLine
      exact Declaration.anchorId_ne_lineId _ _ _ same.symm
    rw [named.mem_iff, List.mem_append, or_iff_right notLine, listed, lookedUp]
  · rw [← lookedUp]
    constructor
    · rintro ⟨run, isRun, isAnchor, _, _⟩
      exact listed.mp (List.mem_filterMap.mpr ⟨run, isRun, by rw [Run.id?, isAnchor]⟩)
    · intro identifier
      obtain ⟨run, isRun, isAnchor, start, stop⟩ :=
        sites.exists_anchor known stands declares.mem identifier
      refine ⟨run, isRun, isAnchor, start.trans stands.start.symm, ?_⟩
      rw [stop, range, stands.name, stands.start]
      rfl

/-- A module that declares a name which is a keyword to the reader of tokens. -/
def printFiles : List (Path × Text) :=
  [(⟨"/r/a.py".toList⟩, "def print(s):\n  pass\nx = 1\n".toList)]

def printLayout : Layout := ⟨⟨"/r".toList⟩, ⟨"/out".toList⟩⟩

theorem declarations_printFiles :
    (Index.ofFiles printFiles).declarations.toList =
      [⟨"print".toList, .function, ⟨"/r/a.py".toList⟩, 1, 4, 9, none⟩,
        ⟨"x".toList, .assignment, ⟨"/r/a.py".toList⟩, 3, 21, 22, none⟩] := by
  decide +kernel

theorem exists_destination_iff_printFiles :
    printFiles.filter (·.1.sameAs ⟨"/r/a.py".toList⟩) =
        [(⟨"/r/a.py".toList⟩, "def print(s):\n  pass\nx = 1\n".toList)] ∧
      ∃ c, Composition.compose "def print(s):\n  pass\nx = 1\n".toList
          (pageRuns (Index.ofFiles printFiles) printLayout ⟨"/r/a.py".toList⟩
            "def print(s):\n  pass\nx = 1\n".toList) .linksInnermost = .ok c ∧
        "line-1".toList ∈ ids (c.body "def print(s):\n  pass\nx = 1\n".toList
          ⟨"/out/a.py.html".toList⟩) ∧
        "decl-print-1".toList ∉ ids (c.body "def print(s):\n  pass\nx = 1\n".toList
          ⟨"/out/a.py.html".toList⟩) ∧
        "decl-x-3".toList ∈ ids (c.body "def print(s):\n  pass\nx = 1\n".toList
          ⟨"/out/a.py.html".toList⟩) := by
  have unique : printFiles.filter (·.1.sameAs ⟨"/r/a.py".toList⟩) =
      [(⟨"/r/a.py".toList⟩, "def print(s):\n  pass\nx = 1\n".toList)] := by
    cbv
  obtain ⟨c, composed, destinations⟩ :=
    exists_destination_iff unique printLayout .linksInnermost ⟨"/out/a.py.html".toList⟩
  rw [declarations_printFiles] at destinations
  obtain ⟨_, line, print, _⟩ := destinations _ List.mem_cons_self (by decide +kernel)
  obtain ⟨_, _, x, _⟩ :=
    destinations _ (List.mem_cons_of_mem _ List.mem_cons_self) (by decide +kernel)
  refine ⟨unique, c, composed, line, ?_, ?_⟩
  · exact fun listed => absurd (print.mp listed).1 (by decide +kernel)
  · exact x.mpr (by decide +kernel)

/-- The declaration of a keyword's name has no place to link to. -/
theorem not_exists_anchor_printFiles :
    ∃ declaration ∈ (Index.ofFiles printFiles).declarations.toList,
      declaration.file = ⟨"/r/a.py".toList⟩ ∧
      ∀ run ∈ CrossReference.runs (Index.ofFiles printFiles) printLayout ⟨"/r/a.py".toList⟩
          "def print(s):\n  pass\nx = 1\n".toList,
        run.treatment ≠ .anchor declaration.anchor := by
  refine ⟨⟨"print".toList, .function, ⟨"/r/a.py".toList⟩, 1, 4, 9, none⟩, ?_, rfl, ?_⟩
  · rw [declarations_printFiles]
    exact List.mem_cons_self
  · decide +kernel

end Outline

end Hyperlisting
