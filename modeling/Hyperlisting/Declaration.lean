import Hyperlisting.Path
import Hyperlisting.Token.Scan

/-!
Declarations of a source file: functions, classes and module-level assignments. Indentation alone
decides what a declaration is nested in: the nearest open function or class that is indented less.
-/

namespace Hyperlisting

inductive DeclarationKind where
  | function
  | classType
  | assignment
deriving DecidableEq

def DeclarationKind.label : DeclarationKind → Text
  | function => "def".toList
  | classType => "class".toList
  | assignment => "var".toList

structure Declaration where
  name : Text
  kind : DeclarationKind
  file : Path
  /-- The line of the name, from 1. -/
  line : Nat
  start : Nat
  stop : Nat
  /-- The number of the function or class around it. -/
  parent : Option Nat
deriving DecidableEq

namespace Declaration

/-- The id of a declaration as a place to link to. No line has such an id. -/
def anchorId (name : Text) (line : Nat) : Text :=
  "decl-".toList ++ name ++ '-' :: Text.ofNat line

def anchor (declaration : Declaration) : Text := anchorId declaration.name declaration.line

/-- A function or class that later lines may belong to. -/
structure Scope where
  indent : Nat
  id : Nat

/-- What a token, the first of its line, declares: the kind and the token that is the name. -/
def introduced? (token : Token) (next : Option Token) :
    Option (DeclarationKind × Token) := do
  let next ← next
  guard (token.kind = .name && token.place.startsLine)
  if token.text = "def".toList && next.kind = .name then
    some (.function, next)
  else if token.text = "class".toList && next.kind = .name then
    some (.classType, next)
  else if token.place.column = 0 && !Token.isKeyword token.text &&
      next.kind = .operator && next.text = "=".toList then
    some (.assignment, token)
  else none

/-- The declarations among some tokens, numbered from `id` on. `scopes` are the open functions and
classes, innermost first; a declaration closes those that are indented as much as itself. -/
def collect (file : Path) :
    (id : Nat) → (scopes : List Scope) → List Token → List Declaration
  | _, _, [] => []
  | id, scopes, token :: tokens =>
    match introduced? token tokens.head? with
    | none => collect file id scopes tokens
    | some (kind, name) =>
      let indent := token.place.column
      let outer := scopes.dropWhile (indent ≤ ·.indent)
      let scopes := if kind = .assignment then outer else ⟨indent, id⟩ :: outer
      { name := name.text, kind, file
        line := name.place.line
        start := name.start
        stop := name.stop
        parent := outer.head?.map Scope.id } :: collect file (id + 1) scopes tokens

/-- The declarations of a file, in order, numbered from `first` on. -/
def ofSource (file : Path) (source : Text) (first : Nat) : List Declaration :=
  collect file first [] (Token.tokenize source)

end Declaration
end Hyperlisting
