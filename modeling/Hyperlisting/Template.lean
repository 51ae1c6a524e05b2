import Hyperlisting.Markup.Escape

/-!
Templates: text with placeholders `${name}`. A template is read once, from the left; what is put
in the place of a placeholder is never read again.
-/

namespace Hyperlisting

structure Template where
  source : Text

namespace Template

inductive Slot where
  /-- Escaped first. -/
  | text (content : Text)
  /-- Put in as it is. -/
  | markup (content : Text)

def Slot.print : Slot → Text
  | text content => Markup.escape content
  | markup content => content

/-- A template and a list of values that do not go together. -/
inductive Fault where
  | unknownPlaceholder (name : Text)
  | missingValue (name : Text)
deriving DecidableEq

def Fault.message : Fault → Text
  | unknownPlaceholder name => "template has no placeholder named `".toList ++ name ++ ['`']
  | missingValue name => "no value supplied for placeholder `".toList ++ name ++ ['`']

/-- A character that stands for itself, or a placeholder. -/
inductive Part where
  | literal (c : Char)
  | placeholder (name : Text)

def isNameStart (c : Char) : Bool := c.isAlpha || c = '_'

def isNameChar (c : Char) : Bool := c.isAlphanum || c = '_'

def placeholder? : Text → Option Text
  | '$' :: '\x7b' :: rest =>
    let name := rest.takeWhile isNameChar
    if name.head?.any isNameStart && (rest.drop name.length).head? = some '\x7d' then some name
    else none
  | _ => none

/-- The parts of a text whose first `skip` characters belong to a placeholder already read. -/
def partsFrom : (skip : Nat) → Text → List Part
  | _, [] => []
  | skip + 1, _ :: rest => partsFrom skip rest
  | 0, c :: rest =>
    match placeholder? (c :: rest) with
    | some name => .placeholder name :: partsFrom (name.length + 2) rest
    | none => .literal c :: partsFrom 0 rest

def parts (template : Template) : List Part := partsFrom 0 template.source

def Part.name? : Part → Option Text
  | literal _ => none
  | placeholder name => some name

/-- The names of all placeholders, sorted, each once. -/
def placeholders (template : Template) : List Text :=
  ((template.parts.filterMap Part.name?).mergeSort fun a b => (compare a b).isLE).eraseReps

def valueOf? (values : List (Text × Slot)) (name : Text) : Option Slot :=
  (values.find? (·.1 = name)).map Prod.snd

def Part.print (values : List (Text × Slot)) : Part → Text
  | literal c => [c]
  | placeholder name => ((valueOf? values name).map Slot.print).getD []

/-- Fills every placeholder. Each value needs a placeholder, and each placeholder a value. -/
def fill (template : Template) (values : List (Text × Slot)) : Except Fault Text :=
  match values.find? (!template.placeholders.contains ·.1) with
  | some (name, _) => .error (.unknownPlaceholder name)
  | none =>
    match template.placeholders.find? fun name => (valueOf? values name).isNone with
    | some name => .error (.missingValue name)
    | none => .ok (template.parts.flatMap (Part.print values))

end Template
end Hyperlisting
