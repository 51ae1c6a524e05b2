import Hyperlisting.Text.Place

/-!
Tokens of a source text: the parts that are highlighted or looked up. White space and delimiters
belong to no token.
-/

namespace Hyperlisting

inductive TokenKind where
  | tripleString
  | string
  | comment
  | decorator
  | number
  | name
  | operator
deriving DecidableEq

structure Token where
  kind : TokenKind
  place : Place
  text : Text
deriving DecidableEq

namespace Token

def start (token : Token) : Nat := token.place.offset

def stop (token : Token) : Nat := token.start + token.text.byteSize

def keywords : List Text :=
  ["and", "as", "assert", "async", "await", "break", "class", "continue", "def", "del", "elif",
   "else", "except", "exec", "finally", "for", "from", "global", "if", "import", "in", "is",
   "lambda", "nonlocal", "not", "or", "pass", "print", "raise", "return", "try", "while", "with",
   "yield"].map String.toList

def constants : List Text :=
  ["None", "True", "False", "NotImplemented", "Ellipsis"].map String.toList

/-- Names that every module knows, and the customary names of a method's first parameter. -/
def builtins : List Text :=
  ["abs", "all", "any", "bool", "bytes", "callable", "chr", "dict", "dir", "enumerate", "filter",
   "float", "format", "frozenset", "getattr", "hasattr", "hash", "id", "input", "int",
   "isinstance", "issubclass", "iter", "len", "list", "map", "max", "min", "next", "object",
   "open", "ord", "pow", "range", "repr", "reversed", "round", "set", "setattr", "sorted", "str",
   "sum", "super", "tuple", "type", "zip", "self", "cls"].map String.toList

def isKeyword (word : Text) : Bool := keywords.contains word

def isConstant (word : Text) : Bool := constants.contains word

def isBuiltin (word : Text) : Bool := builtins.contains word

end Token
end Hyperlisting
