import Hyperlisting.Index
import Hyperlisting.Page
import Hyperlisting.Token.Scan

/-!
Cross references. Where a name is declared the page has a place to link to; elsewhere the name
links to the page of its declaration. A declaration outside the root has no page, so a name that
means it only tells about it.
-/

namespace Hyperlisting.CrossReference

/-- The declaration that a name means in a file. A name after a dot means a nested declaration;
any other name means a top-level one, or failing that a nested one of the same file. Among these
the file's own come first. -/
def resolve (index : Index) (name : Text) (file : Path) (attributeName : Bool) :
    Option Declaration :=
  let candidates := index.lookup name
  let fits (declaration : Declaration) : Bool := declaration.parent.isSome = attributeName
  let isOwn (declaration : Declaration) : Bool := declaration.file.sameAs file
  (candidates.find? fun declaration => fits declaration && isOwn declaration)
    |>.or (candidates.find? fits)
    |>.or (if attributeName then none else candidates.find? isOwn)

/-- What a reader is told about a declaration: what it is and where. -/
def tooltip (layout : Layout) (declaration : Declaration) : Text :=
  let file := (declaration.file.below? layout.root).getD declaration.file
  declaration.kind.label ++ ' ' :: declaration.name ++ " (".toList ++ file.text ++
    ':' :: Text.ofNat declaration.line ++ [')']

/-- The declaration whose name starts at an offset; of several, the one added last. -/
def siteAt? (declared : List Declaration) (offset : Nat) : Option Declaration :=
  declared.findRev? (·.start = offset)

def reference (layout : Layout) (token : Token) (declaration : Declaration) : Run where
  start := token.start
  stop := token.stop
  treatment :=
    match layout.pagePath declaration.file with
    | .ok page => .link ⟨page, some declaration.anchor⟩
    | .error _ => .style "info".toList
  tooltip := some (tooltip layout declaration)

/-- A place to link to, where a declaration's name stands. -/
def destination (token : Token) (declaration : Declaration) : Run where
  start := token.start
  stop := token.stop
  treatment := .anchor declaration.anchor

/-- The run of a token: only names that are neither keywords nor constants have one. `declared` are
the declarations of the file. -/
def run? (index : Index) (layout : Layout) (file : Path) (declared : List Declaration)
    (token : Token) : Option Run :=
  if token.kind ≠ .name || Token.isKeyword token.text || Token.isConstant token.text then none
  else
    match (siteAt? declared token.start).filter (·.name = token.text) with
    | some declaration => some (destination token declaration)
    | none =>
      let attributeName := token.place.previous = some '.'
      (resolve index token.text file attributeName).map (reference layout token)

def runs (index : Index) (layout : Layout) (file : Path) (source : Text) : List Run :=
  let declared := (index.declarationsIn file).map Prod.snd
  (Token.tokenize source).filterMap (run? index layout file declared)

def producer (index : Index) (layout : Layout) : Producer where
  name := "linker".toList
  runs := runs index layout

end Hyperlisting.CrossReference
