import Hyperlisting.Proofs.Markup.Attributes
import Hyperlisting.Proofs.Markup.Items
import Hyperlisting.Proofs.Outline.Levels

/-! How the items of an outline are nested. Read back, an outline has an item for each declaration
of its file, in order, and around each item exactly the items of the declarations that it is nested
in. -/

namespace Hyperlisting

open Markup

/-- The declarations around a place, outermost first, as the table tells them. -/
inductive Index.Around (index : Index) : Option Nat → List Nat → Prop
  | outermost : Around index none []
  | within {id : Nat} {declaration : Declaration} {chain : List Nat} :
    index.declarations[id]? = some declaration → Around index declaration.parent chain →
      Around index (some id) (chain ++ [id])

namespace Outline

variable {declaration : Declaration} {forest : Forest} {found others rest : List Mark}

/-- What is written between the brackets of the tag around a declaration's name. -/
def insideLink (declaration : Declaration) : Text :=
  "a href=\"#".toList ++ escape (lineId declaration.line) ++ "\" onclick=\"highlight('".toList ++
    escape (lineId declaration.line) ++ "', '".toList ++ escape declaration.anchor ++ "')\"".toList

def linkTag (declaration : Declaration) : Text := '<' :: (insideLink declaration ++ ['>'])

def entryMarks (declaration : Declaration) : List Mark :=
  .tag "<span class=\"keyword\">".toList ::
      (declaration.kind.label.map .character ++ [.tag "</span>".toList]) ++
    ([' '].map .character ++
      (.tag (linkTag declaration) :: ((escape declaration.name).map .character ++
        [.tag "</a>".toList])))

theorem bracketless_insideLink (declaration : Declaration) :
    Bracketless (insideLink declaration) := by
  have line := bracketless_escape (lineId declaration.line)
  have anchor := bracketless_escape declaration.anchor
  delta insideLink
  exact .append (.append (.append (.append (.append (.append (by decide) line) (by decide)) line)
    (by decide)) anchor) (by decide)

theorem tagPair_span : TagPair "<span class=\"keyword\">".toList "</span>".toList :=
  @TagPair.of_named "span class=\"keyword\"".toList "span".toList (by decide) (by decide)
    (by decide) (by decide)

theorem tagPair_link (declaration : Declaration) : TagPair (linkTag declaration) "</a>".toList :=
  @TagPair.of_named (insideLink declaration) "a".toList
    (bracketless_insideLink declaration) (by decide) rfl rfl

theorem tagPair_list : TagPair "<ul>".toList "</ul>".toList :=
  @TagPair.of_named "ul".toList "ul".toList (by decide) (by decide) (by decide) (by decide)

theorem tagPair_item : TagPair "<li>".toList "</li>".toList :=
  @TagPair.of_named "li".toList "li".toList (by decide) (by decide) (by decide) (by decide)

theorem entry_eq_tags (declaration : Declaration) :
    entry declaration = "<span class=\"keyword\">".toList ++
      (declaration.kind.label ++ "</span>".toList) ++ ([' '] ++ (linkTag declaration ++
        (escape declaration.name ++ "</a>".toList))) := by
  have between : "</span> <a href=\"#".toList =
      "</span>".toList ++ ([' '] ++ '<' :: "a href=\"#".toList) := rfl
  have ending : "')\">".toList = "')\"".toList ++ ['>'] := rfl
  delta entry linkTag insideLink
  dsimp only
  rw [between, ending]
  simp only [List.append_assoc, List.cons_append, List.nil_append]

theorem listless_escape (text : Text) : Listless (escape text) ((escape text).map .character) :=
  .characters (bracketless_escape text).1

theorem listless_entry (declaration : Declaration) :
    Listless (entry declaration) (entryMarks declaration) := by
  have label : '<' ∉ declaration.kind.label := by cases declaration.kind <;> decide
  have kind := (Listless.characters label).element tagPair_span (by decide)
  have name := (listless_escape declaration.name).element (tagPair_link declaration) rfl
  rw [entry_eq_tags]
  exact kind.append ((Listless.characters (by decide)).append name)

/-- The link of an entry leads to the line of its declaration, and marks the line and the name. -/
theorem tagAttributes_linkTag (declaration : Declaration) :
    tagAttributes (linkTag declaration) =
      [⟨"href".toList, '#' :: lineId declaration.line⟩,
        ⟨"onclick".toList, "highlight('".toList ++ lineId declaration.line ++ "', '".toList ++
          declaration.anchor ++ "')".toList⟩] := by
  let line := escape (lineId declaration.line)
  let call := "highlight('".toList ++ (line ++ ("', '".toList ++ (escape declaration.anchor ++
    "')".toList)))
  have parts : linkTag declaration = "<a href=".toList ++ '"' :: (('#' :: line) ++
      '"' :: (" onclick=".toList ++ '"' :: (call ++ '"' :: ['>']))) := by
    have opening : "a href=\"#".toList = "a href=".toList ++ '"' :: ['#'] := rfl
    have between : "\" onclick=\"highlight('".toList =
      '"' :: (" onclick=".toList ++ '"' :: "highlight('".toList) := rfl
    have ending : "')\"".toList = "')".toList ++ ['"'] := rfl
    have start : "<a href=".toList = '<' :: "a href=".toList := rfl
    delta linkTag insideLink
    rw [opening, between, ending, start]
    simp only [line, call, List.append_assoc, List.cons_append, List.nil_append]
  have lineUnquoted : '"' ∉ '#' :: line := by
    rw [List.mem_cons, not_or]
    exact ⟨by decide, quote_not_mem_escape _⟩
  have callUnquoted : '"' ∉ call :=
    List.not_mem_append (by decide) (List.not_mem_append (quote_not_mem_escape _)
      (List.not_mem_append (by decide) (List.not_mem_append (quote_not_mem_escape _) (by decide))))
  have lineRead : unescape ('#' :: line) = '#' :: lineId declaration.line := by
    rw [unescape_cons (by decide), unescape_escape]
  have callRead : unescape call = "highlight('".toList ++ (lineId declaration.line ++
      ("', '".toList ++ (declaration.anchor ++ "')".toList))) := by
    have ending : unescape "')".toList = "')".toList := rfl
    rw [unescape_append_of_not_mem (by decide), unescape_escape_append,
      unescape_append_of_not_mem (by decide), unescape_escape_append, ending]
  rw [parts, tagAttributes_quoted (by decide) lineUnquoted,
    tagAttributes_quoted (by decide) callUnquoted, tagAttributes_unquoted (by decide), lineRead,
    callRead]
  simp only [List.append_assoc]
  rfl

/-- An entry shows the kind of its declaration, and its name in a link that says line and anchor. -/
theorem marks_entry (declaration : Declaration) :
    ∃ link shown, marks (entry declaration) =
        some (.tag "<span class=\"keyword\">".toList ::
          (declaration.kind.label.map .character ++ .tag "</span>".toList :: .character ' ' ::
            .tag link :: (shown.map .character ++ [.tag "</a>".toList]))) ∧
      tagName link = "a".toList ∧
      tagAttributes link = [⟨"href".toList, '#' :: lineId declaration.line⟩,
        ⟨"onclick".toList, "highlight('".toList ++ lineId declaration.line ++ "', '".toList ++
          declaration.anchor ++ "')".toList⟩] ∧
      unescape shown = declaration.name := by
  refine ⟨linkTag declaration, escape declaration.name, ?_, rfl, tagAttributes_linkTag declaration,
    unescape_escape declaration.name⟩
  rw [(listless_entry declaration).reads.marks_eq, entryMarks]
  simp

end Outline

namespace Forest

open Outline

variable {forest : Forest} {found : List Mark}

def marksInList : Forest → List Mark → List Mark
  | nil, _ => []
  | tree .., items =>
    .tag "<ul>".toList :: (['\n'].map .character ++ items ++ [.tag "</ul>".toList]) ++
      ['\n'].map .character

def marks : Forest → List Mark
  | nil => []
  | tree _ declaration inside rest =>
    .tag "<li>".toList :: (entryMarks declaration ++ inside.marksInList inside.marks ++
      [.tag "</li>".toList]) ++ (['\n'].map .character ++ rest.marks)

theorem reads_inList {text : Text} (forest : Forest) (reads : Reads text found) :
    Reads (forest.inList text) (forest.marksInList found) := by
  cases forest with
  | nil => exact .nil
  | tree id declaration inside rest =>
    have newline : Reads ['\n'] (['\n'].map .character) := .characters (by decide)
    have whole := ((newline.append reads).element tagPair_list).append newline
    have opening : "<ul>\n".toList = "<ul>".toList ++ ['\n'] := rfl
    have ending : "</ul>\n".toList = "</ul>".toList ++ ['\n'] := rfl
    rw [marksInList, inList, opening, ending]
    simpa only [List.append_assoc] using whole

theorem reads_print (forest : Forest) : Reads forest.print forest.marks := by
  induction forest with
  | nil => exact .nil
  | tree id declaration inside rest insideIh restIh =>
    have newline : Reads ['\n'] (['\n'].map .character) := .characters (by decide)
    have held := (listless_entry declaration).reads.append (reads_inList inside insideIh)
    have whole := (held.element tagPair_item).append (newline.append restIh)
    have ending : "</li>\n".toList = "</li>".toList ++ ['\n'] := rfl
    rw [marks, print, wholeItem, ending]
    simpa only [List.append_assoc] using whole

theorem balanced_marksInList (forest : Forest) (balanced : Balanced found) :
    Balanced (forest.marksInList found) := by
  cases forest with
  | nil => exact balanced_characters []
  | tree id declaration inside rest =>
    have newline := balanced_characters ['\n']
    exact ((newline.append balanced).element tagPair_list).append newline

theorem balanced_marks (forest : Forest) : Balanced forest.marks := by
  induction forest with
  | nil => exact balanced_characters []
  | tree id declaration inside rest insideIh restIh =>
    have held := (listless_entry declaration).balanced.append
      (balanced_marksInList inside insideIh)
    exact (held.element tagPair_item).append ((balanced_characters ['\n']).append restIh)

/-- The items of some trees, with those that are open around them. -/
def places (number : Nat) (above : List Nat) : Forest → List (List Nat × Text)
  | nil => []
  | tree _ declaration inside rest =>
    (above, entry declaration) :: (inside.places (number + 1) (above ++ [number]) ++
      rest.places (number + 1 + inside.entries.length) above)

/-- Behind the entry of an item its list begins, or it ends. -/
theorem exists_marksInList (forest : Forest) (items rest : List Mark) :
    ∃ mark after, forest.marksInList items ++ .tag "</li>".toList :: rest = mark :: after ∧
      mark.ofList = true := by
  cases forest with
  | nil => exact ⟨_, _, rfl, by decide⟩
  | tree id declaration inside rest => exact ⟨_, _, rfl, by decide⟩

theorem itemsFrom_marksInList {number : Nat} {opened : List (Option Nat)}
    (read : ∀ more, itemsFrom number (none :: opened) (forest.marks ++ more) =
      forest.places number (openItems opened) ++
        itemsFrom (number + forest.entries.length) (none :: opened) more) (more : List Mark) :
    itemsFrom number opened (forest.marksInList forest.marks ++ more) =
      forest.places number (openItems opened) ++
        itemsFrom (number + forest.entries.length) opened more := by
  cases forest with
  | nil => rfl
  | tree id declaration inside rest =>
    have newline : Listless ['\n'] (['\n'].map .character) := .characters (by decide)
    rw [marksInList]
    simp only [List.append_assoc, List.cons_append, List.nil_append]
    rw [tagPair_list.itemsFrom_other (by decide), newline.itemless, read,
      tagPair_list.itemsFrom_closing, newline.itemless]

/-- Read back, the items are those of the trees, in order. -/
theorem itemsFrom_marks (forest : Forest) (number : Nat) (opened : List (Option Nat))
    (more : List Mark) :
    itemsFrom number opened (forest.marks ++ more) =
      forest.places number (openItems opened) ++
        itemsFrom (number + forest.entries.length) opened more := by
  induction forest generalizing number opened more with
  | nil => rfl
  | tree id declaration inside rest insideIh restIh =>
    have nested (more : List Mark) :
        itemsFrom (number + 1) (some number :: opened) (inside.marksInList inside.marks ++ more) =
          inside.places (number + 1) (openItems opened ++ [number]) ++
            itemsFrom (number + 1 + inside.entries.length) (some number :: opened) more := by
      rw [← openItems_some]
      exact itemsFrom_marksInList (insideIh (number + 1) (none :: some number :: opened)) more
    obtain ⟨mark, after, behind, ends⟩ := exists_marksInList inside inside.marks
      (['\n'].map .character ++ (rest.marks ++ more))
    have own := (listless_entry declaration).ownText_append ends after
    rw [← behind] at own
    have newline : Listless ['\n'] (['\n'].map .character) := .characters (by decide)
    have size : number + (tree id declaration inside rest).entries.length =
        number + 1 + inside.entries.length + rest.entries.length := by
      rw [entries, List.length_cons, List.length_append]
      omega
    rw [marks]
    simp only [List.append_assoc, List.cons_append, List.nil_append]
    rw [tagPair_item.itemsFrom_item (by decide), own, (listless_entry declaration).itemless,
      nested, tagPair_item.itemsFrom_closing, newline.itemless, restIh, places, size]
    simp only [List.append_assoc, List.cons_append]

end Forest

namespace Outline

variable {index : Index} {declarations : List (Nat × Declaration)}

/-- An item shows a declaration, and the items around it are, outermost first, those of the
declarations around that one. -/
def Shows (index : Index) (declarations : List (Nat × Declaration)) (item : List Nat × Text)
    (entry : Nat × Declaration) : Prop :=
  item.2 = Outline.entry entry.2 ∧
    ∃ chain, index.Around entry.2.parent chain ∧
      item.1.map (declarations[·]?.map Prod.fst) = chain.map some

/-- The items of a part of the declarations, as long as those around that part are told right. -/
theorem forall₂_places {forest : Forest} {parent : Option Nat}
    {before after : List (Nat × Declaration)} {above chain : List Nat}
    (whole : declarations = before ++ (forest.entries ++ after))
    (known : ∀ entry ∈ declarations, index.declarations[entry.1]? = some entry.2)
    (under : forest.Under parent) (around : index.Around parent chain)
    (told : above.map (declarations[·]?.map Prod.fst) = chain.map some) :
    List.Forall₂ (Shows index declarations) (forest.places before.length above)
      forest.entries := by
  induction forest generalizing parent before after above chain with
  | nil => exact .nil
  | tree id declaration inside rest insideIh restIh =>
    obtain ⟨root, insideUnder, restUnder⟩ := under
    have insideWhole : declarations =
        (before ++ [(id, declaration)]) ++ (inside.entries ++ (rest.entries ++ after)) := by
      simp [whole, Forest.entries]
    have restWhole : declarations =
        (before ++ (id, declaration) :: inside.entries) ++ (rest.entries ++ after) := by
      simp [whole, Forest.entries]
    have here : declarations[before.length]? = some (id, declaration) := by
      simp [whole, Forest.entries]
    have mem : (id, declaration) ∈ declarations := List.mem_of_getElem? here
    have insideTold : (above ++ [before.length]).map (declarations[·]?.map Prod.fst) =
        (chain ++ [id]).map some := by
      simp [told, here]
    have nested := insideIh insideWhole insideUnder (.within (known _ mem) (root ▸ around))
      insideTold
    have later := restIh restWhole restUnder around told
    have insideStart : (before ++ [(id, declaration)]).length = before.length + 1 := by simp
    have restStart : (before ++ (id, declaration) :: inside.entries).length =
        before.length + 1 + inside.entries.length := by
      simp
      omega
    rw [insideStart] at nested
    rw [restStart] at later
    exact .cons ⟨rfl, chain, root ▸ around, told⟩ (List.rel_append nested later)

def heading (file : Path) : Text :=
  (file.fileName?.map fun name =>
    "<b>".toList ++ escape (OsText.text name) ++ "</b>\n".toList).getD []

/-- What is written around the list of an outline. -/
def framed (file : Path) (items : Text) : Text :=
  "<div class=\"outline\">\n".toList ++ heading file ++ items ++ "</div>\n".toList

theorem tagPair_bold : TagPair "<b>".toList "</b>".toList :=
  @TagPair.of_named "b".toList "b".toList (by decide) (by decide) (by decide) (by decide)

theorem tagPair_outline : TagPair "<div class=\"outline\">".toList "</div>".toList :=
  @TagPair.of_named "div class=\"outline\"".toList "div".toList (by decide) (by decide) (by decide)
    (by decide)

theorem exists_listless_heading (file : Path) : ∃ found, Listless (heading file) found := by
  rw [heading]
  cases file.fileName? with
  | none => exact ⟨[], .nil⟩
  | some name =>
    have newline : Listless ['\n'] (['\n'].map .character) := .characters (by decide)
    have bold := ((listless_escape (OsText.text name)).element tagPair_bold (by decide)).append newline
    have ending : "</b>\n".toList = "</b>".toList ++ ['\n'] := rfl
    have shown : "<b>".toList ++ escape (OsText.text name) ++ "</b>\n".toList =
        "<b>".toList ++ (escape (OsText.text name) ++ "</b>".toList) ++ ['\n'] := by
      rw [ending]
      simp only [List.append_assoc]
    exact ⟨_, shown ▸ bold⟩

/-- An outline of some trees leaves no tag open, and has their items. -/
theorem framed_reads (file : Path) (forest : Forest) :
    (∃ shown, reading (framed file (forest.inList forest.print)) = some shown) ∧
      listItems (framed file (forest.inList forest.print)) = forest.places 0 [] := by
  obtain ⟨found, head⟩ := exists_listless_heading file
  have newline : Listless ['\n'] (['\n'].map .character) := .characters (by decide)
  have front := newline.append head
  have reads := ((front.reads.append (forest.reads_inList forest.reads_print)).element
    tagPair_outline).append newline.reads
  have balanced := ((front.balanced.append (forest.balanced_marksInList
    forest.balanced_marks)).element tagPair_outline).append newline.balanced
  have shown : framed file (forest.inList forest.print) =
      "<div class=\"outline\">".toList ++ (['\n'] ++ heading file ++
        forest.inList forest.print ++ "</div>".toList) ++ ['\n'] := by
    have opening : "<div class=\"outline\">\n".toList =
      "<div class=\"outline\">".toList ++ ['\n'] := rfl
    have ending : "</div>\n".toList = "</div>".toList ++ ['\n'] := rfl
    delta framed
    rw [opening, ending]
    simp only [List.append_assoc]
  rw [← shown] at reads
  refine ⟨balanced.exists_reading reads, ?_⟩
  rw [listItems, reads.marks_eq, Option.map_some, Option.getD_some]
  simp only [List.append_assoc, List.cons_append, List.nil_append]
  rw [tagPair_outline.itemsFrom_other (by decide), newline.itemless, head.itemless,
    Forest.itemsFrom_marksInList (forest.itemsFrom_marks 0 _),
    tagPair_outline.itemsFrom_closing]
  exact List.append_nil _

/-- Outlines are complete and in order. However files are added, looking for the items of each level
among all declarations of a file comes to an end, no tag is left open, and the items read back are
those of the declarations, each inside of the items of what it is nested in. -/
theorem listItems_panel (files : List (Path × Text)) (file : Path) :
    let index := Index.ofFiles files
    let declarations := index.declarationsIn file
    (∃ items, level declarations (declarations.length + 1) none = some items ∧
      panel index file = framed file items) ∧
    (∃ shown, reading (panel index file) = some shown) ∧
    declarations = index.entries.filter (·.2.file.sameAs file) ∧
    List.Forall₂ (Shows index declarations) (listItems (panel index file)) declarations := by
  intro index declarations
  have filtered : declarations = index.entries.filter (·.2.file.sameAs file) :=
    (Index.consistent_ofFiles files).faithful.declarationsIn file
  have known : ∀ entry ∈ declarations, index.declarations[entry.1]? = some entry.2 := by
    rw [filtered]
    exact fun entry mem => Index.mem_entries.mp (List.mem_filter.mp mem).1
  obtain ⟨forest, entries, under, fresh⟩ : ∃ forest : Forest, declarations = forest.entries ∧
    forest.Under none ∧ forest.Fresh none := Index.exists_forest files file
  have panelForest : panel index file = framed file (forest.inList forest.print) := by
    rw [← items_entries under fresh, ← list_entries under, ← entries]
    rfl
  obtain ⟨balanced, items⟩ := framed_reads file forest
  have whole : declarations = [] ++ (forest.entries ++ []) := by simpa using entries
  have shows : List.Forall₂ (Shows index declarations) (forest.places 0 []) forest.entries :=
    forall₂_places whole known under .outermost rfl
  refine ⟨⟨_, ?_, panelForest⟩, panelForest ▸ balanced, filtered, ?_⟩
  · exact entries ▸ level_entries under fresh
  · rw [panelForest, items]
    exact entries ▸ shows

/-- A class with a method, and a name behind them. -/
example : (listItems (panel (Index.ofFiles [(⟨"/r/a.py".toList⟩,
    "class A:\n  def m(self):\n    x = 1\nz = 3\n".toList)]) ⟨"/r/a.py".toList⟩)).map Prod.fst =
      [[], [0], []] := by
  decide +kernel

end Outline

end Hyperlisting
