import Hyperlisting.Markup.Escape

/-!
Elements and the pieces of a document: opening tags, closing tags and characters of text.
-/

namespace Hyperlisting.Markup

structure Attribute where
  name : Text
  value : Text

structure Element where
  name : Text
  attributes : List Attribute

def Attribute.print : Attribute → Text
  | ⟨name, value⟩ => ' ' :: name ++ "=\"".toList ++ escapeAttribute value ++ ['"']

namespace Element

def openingTag (element : Element) : Text :=
  '<' :: element.name ++ element.attributes.flatMap Attribute.print ++ ['>']

def closingTag (element : Element) : Text :=
  "</".toList ++ element.name ++ ['>']

end Element

/-- One step through a document. -/
inductive Piece where
  | opening (element : Element)
  | closing (element : Element)
  | character (c : Char)

namespace Piece

def print : Piece → Text
  | opening element => element.openingTag
  | closing element => element.closingTag
  | character c => escapeChar c

def empty (element : Element) : List Piece := [opening element, closing element]

end Piece

def print (pieces : List Piece) : Text := pieces.flatMap Piece.print

@[simp] theorem print_nil : print [] = [] := rfl

@[simp] theorem print_cons (piece : Piece) (pieces : List Piece) :
    print (piece :: pieces) = piece.print ++ print pieces :=
  rfl

@[simp] theorem print_append (pieces more : List Piece) :
    print (pieces ++ more) = print pieces ++ print more :=
  List.flatMap_append

@[simp] theorem print_map_character (s : Text) : print (s.map .character) = escape s := by
  induction s with
  | nil => rfl
  | cons c s ih => simp [ih, Piece.print]

end Hyperlisting.Markup
