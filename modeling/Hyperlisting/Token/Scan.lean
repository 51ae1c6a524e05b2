import Hyperlisting.Token
import Hyperlisting.Unicode.Word

/-!
Reading tokens. A scanner takes the longest token of its kind that a text starts with, or nothing.
At every place the kinds are tried in a fixed order, and where none starts the character is passed
over.
-/

namespace Hyperlisting.Token

open Unicode

/-- Takes the leading part of a text that it stands for; nothing if the text starts otherwise. -/
abbrev Scanner := Text → Text

namespace Scanner

/-- What the first scanner takes, then what the second takes after it. -/
def andThen (first second : Scanner) : Scanner := fun s =>
  let taken := first s
  taken ++ second (s.drop taken.length)

/-- What the first of two scanners takes, if it takes anything, else what the second takes. -/
def orElse (first second : Scanner) : Scanner := fun s =>
  match first s with
  | [] => second s
  | taken => taken

end Scanner

def isQuote (c : Char) : Bool := c = '"' || c = '\''

/-- A letter that may stand before the opening quote. -/
def isStringLetter (c : Char) : Bool := "rRbBuUfF".toList.contains c

def stringLetters : Scanner := fun s => (s.take 2).takeWhile isStringLetter

/-- The body of a string with three quotes, up to and with the first three quotes in a row, or all
of an unclosed one. -/
def tripleBody (quote : Char) : Scanner
  | [] => []
  | c :: s =>
    if c = quote && s.take 2 = [quote, quote] then [quote, quote, quote]
    else c :: tripleBody quote s

/-- The body of a string with one quote, up to and with the closing quote; a backslash protects
the character after it. An unclosed string ends before the line end or a backslash that ends the
text. -/
def stringBody (quote : Char) : Scanner
  | [] => []
  | '\\' :: c :: s => '\\' :: c :: stringBody quote s
  | c :: s =>
    if c = quote then [c]
    else if c = '\n' || c = '\\' then []
    else c :: stringBody quote s

def tripleString : Scanner := fun s =>
  let letters := stringLetters s
  match s.drop letters.length with
  | first :: second :: third :: body =>
    if isQuote first && second = first && third = first then
      letters ++ first :: first :: first :: tripleBody first body
    else []
  | _ => []

def string : Scanner := fun s =>
  let letters := stringLetters s
  match s.drop letters.length with
  | quote :: body => if isQuote quote then letters ++ quote :: stringBody quote body else []
  | [] => []

def comment : Scanner
  | '#' :: s => '#' :: s.takeWhile (· ≠ '\n')
  | _ => []

def decorator : Scanner
  | '@' :: c :: s =>
    if isWordStart c then '@' :: c :: s.takeWhile fun c => isWord c || c = '.' else []
  | _ => []

def isDigitOrUnderscore (c : Char) : Bool := isDecimalDigit c || c = '_'

/-- An ASCII digit of base sixteen or an underscore. -/
def isRadixDigit (c : Char) : Bool := "0123456789abcdefABCDEF_".toList.contains c

/-- A number with its base in front. Digits up to those of base sixteen go with any base. -/
def radixNumber : Scanner
  | '0' :: radix :: s =>
    let digits := s.takeWhile isRadixDigit
    if "xXoObB".toList.contains radix && !digits.isEmpty then '0' :: radix :: digits else []
  | _ => []

/-- A point and the digits after it, of which there may be none. -/
def fraction : Scanner
  | '.' :: s => '.' :: s.takeWhile isDigitOrUnderscore
  | _ => []

def sign : Scanner := fun s => (s.take 1).takeWhile fun c => c = '+' || c = '-'

/-- A mark, a sign if there is one, and at least one digit. -/
def exponent : Scanner
  | mark :: s =>
    let power := sign s
    let digits := (s.drop power.length).takeWhile isDecimalDigit
    if (mark = 'e' || mark = 'E') && !digits.isEmpty then mark :: power ++ digits else []
  | [] => []

def imaginaryUnit : Scanner := fun s => (s.take 1).takeWhile fun c => c = 'j' || c = 'J'

def decimalNumber : Scanner
  | c :: s =>
    if isDecimalDigit c then
      c :: Scanner.andThen (·.takeWhile isDigitOrUnderscore)
        (fraction.andThen (exponent.andThen imaginaryUnit)) s
    else []
  | [] => []

def pointNumber : Scanner
  | '.' :: c :: s =>
    if isDecimalDigit c then
      '.' :: c :: Scanner.andThen (·.takeWhile isDigitOrUnderscore)
        (exponent.andThen imaginaryUnit) s
    else []
  | _ => []

def number : Scanner := radixNumber.orElse (decimalNumber.orElse pointNumber)

def name : Scanner
  | c :: s => if isWordStart c then c :: s.takeWhile isWord else []
  | [] => []

def isOperatorChar (c : Char) : Bool := "-+*/%=<>!&|^~".toList.contains c

def operator : Scanner := fun s => s.takeWhile isOperatorChar

/-- The kinds in the order in which they are tried. -/
def scanners : List (TokenKind × Scanner) :=
  [(.tripleString, tripleString), (.string, string), (.comment, comment),
   (.decorator, decorator), (.number, number), (.name, name), (.operator, operator)]

/-- The kind and the text of the token that a text starts with. -/
def first? (s : Text) : Option (TokenKind × Text) :=
  scanners.findSome? fun (kind, scan) =>
    match scan s with
    | [] => none
    | text => some (kind, text)

/-- The tokens of a text that stands at a place and whose first `skip` characters belong to a token
already read. -/
def tokensFrom : (skip : Nat) → Place → Text → List Token
  | _, _, [] => []
  | skip + 1, place, c :: s => tokensFrom skip (place.next c) s
  | 0, place, c :: s =>
    match first? (c :: s) with
    | some (kind, text) => ⟨kind, place, text⟩ :: tokensFrom (text.length - 1) (place.next c) s
    | none => tokensFrom 0 (place.next c) s

/-- All tokens of a source, in order. -/
def tokenize (source : Text) : List Token := tokensFrom 0 .start source

end Hyperlisting.Token
