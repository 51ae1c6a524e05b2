import Hyperlisting.Run
import Hyperlisting.Token.Scan

/-!
Lexical highlighting: every token is a styled run. A name's class hangs on the name before it,
which tells the names that a declaration introduces.
-/

namespace Hyperlisting.Highlight

/-- The class of a name, given the token before it if that is a name too. -/
def nameClass (previous : Option Text) (word : Text) : Text :=
  if Token.isKeyword word then "keyword".toList
  else if Token.isConstant word then "constant".toList
  else if previous = some "def".toList then "function".toList
  else if previous = some "class".toList then "type-name".toList
  else if Token.isBuiltin word then "builtin".toList
  else "identifier".toList

/-- A string with three quotes that starts its line is documentation. -/
def className (previous : Option Text) (token : Token) : Text :=
  match token.kind with
  | .tripleString =>
    if token.place.startsLine then "doc-string".toList else "string".toList
  | .string => "string".toList
  | .comment => "comment".toList
  | .decorator => "decorator".toList
  | .number => "number".toList
  | .operator => "operator".toList
  | .name => nameClass previous token.text

/-- The runs of some tokens, given the token before them if that is a name. -/
def runsFrom (previous : Option Text) : List Token → List Run
  | [] => []
  | token :: tokens =>
    { start := token.start, stop := token.stop,
      treatment := .style (className previous token) } ::
      runsFrom (if token.kind = .name then some token.text else none) tokens

def runs (source : Text) : List Run := runsFrom none (Token.tokenize source)

def producer : Producer where
  name := "styler".toList
  runs _ source := runs source

end Hyperlisting.Highlight
