import Hyperlisting.Index
import Hyperlisting.Markup.LineNumbers

/-!
The outline panel: the declarations of a file as nested lists, in order. A declaration comes after
the one it is nested in, so what lies inside an item is found further on in the file.
-/

namespace Hyperlisting.Outline

/-- The line of a declaration: its kind, and its name as a link that marks line and name. -/
def entry (declaration : Declaration) : Text :=
  let line := Markup.escape (Markup.lineId declaration.line)
  let anchor := Markup.escape declaration.anchor
  "<span class=\"keyword\">".toList ++ declaration.kind.label ++
    "</span> <a href=\"#".toList ++ line ++ "\" onclick=\"highlight('".toList ++ line ++
    "', '".toList ++ anchor ++ "')\">".toList ++ Markup.escape declaration.name ++ "</a>".toList

def hasChildren (parent : Option Nat) (declarations : List (Nat × Declaration)) : Bool :=
  declarations.any (·.2.parent = parent)

/-- The list around the items of a parent; no list if there are none. -/
def list (parent : Option Nat) (declarations : List (Nat × Declaration)) (items : Text) : Text :=
  if hasChildren parent declarations then "<ul>\n".toList ++ items ++ "</ul>\n".toList else []

/-- The items of the declarations nested directly in a parent, each with its own list inside. -/
def items (parent : Option Nat) : List (Nat × Declaration) → Text
  | [] => []
  | (id, declaration) :: rest =>
    if declaration.parent = parent then
      "<li>".toList ++ entry declaration ++ list (some id) rest (items (some id) rest) ++
        "</li>\n".toList ++ items parent rest
    else items parent rest

def panel (index : Index) (file : Path) : Text :=
  let declarations := index.declarationsIn file
  let heading (name : OsText) : Text :=
    "<b>".toList ++ Markup.escape name.text ++ "</b>\n".toList
  "<div class=\"outline\">\n".toList ++ ((file.fileName?.map heading).getD []) ++
    list none declarations (items none declarations) ++ "</div>\n".toList

end Hyperlisting.Outline
