import Hyperlisting.Markup.Element

/-!
Line numbers over finished markup. Every line gets a numbered label in front. What follows the
last line end counts as a line only if text stands outside its tags, so closing tags and empty
elements after a final line end stay with the last line.
-/

namespace Hyperlisting.Markup

/-- The name of a line as a place to link to. -/
def lineId (number : Nat) : Text := "line-".toList ++ Text.ofNat number

def lineLabel (number : Nat) : Text :=
  "<span class=\"lineno\" id=\"".toList ++ lineId number ++ "\">".toList ++ Text.ofNat number ++
    "</span> ".toList

/-- Some character stands outside all tags; `inside` tells whether a tag is open. -/
def hasTextFrom (inside : Bool) : Text → Bool
  | [] => false
  | '<' :: rest => hasTextFrom true rest
  | '>' :: rest => hasTextFrom false rest
  | _ :: rest => !inside || hasTextFrom inside rest

def hasText (line : Text) : Bool := hasTextFrom false line

/-- Labels lines from a number on; the last one is left bare if it follows another and is empty. -/
def labelLines (number : Nat) : List Text → List Text
  | [] => []
  | [line] => if number = 1 || hasText line then [lineLabel number ++ line] else [line]
  | line :: next :: rest => (lineLabel number ++ line) :: labelLines (number + 1) (next :: rest)

def numberLines (markup : Text) : Text :=
  ['\n'].intercalate (labelLines 1 (markup.splitOn '\n'))

end Hyperlisting.Markup
