import Hyperlisting.OsText

/-!
File paths. A path keeps the bytes it was written with, which need not be a text; equality of
places, order and containment go by components, which skip repeated separators and every `.` but a
leading one. `..` is a component like any other: no link or directory is looked up here.
-/

namespace Hyperlisting

structure Path where
  ofBytes ::
  bytes : OsText
deriving DecidableEq

namespace Path

/-- The path that a text spells. -/
abbrev mk (text : Text) : Path := ofBytes text

/-- What is shown of a path. -/
def text (path : Path) : Text := path.bytes.text

/-- The byte of `/`. -/
abbrev separator : UInt8 := 0x2F

/-- The byte of `.`. -/
@[match_pattern] abbrev dot : UInt8 := 0x2E

inductive Component where
  | root
  | current
  | parent
  | name (bytes : OsText)
deriving DecidableEq

namespace Component

def bytes : Component → OsText
  | root => [separator]
  | current => [dot]
  | parent => [dot, dot]
  | name bytes => bytes

def text (component : Component) : Text := component.bytes.text

/-- The step that a piece between two separators stands for; an empty piece and `.` are none. -/
def ofPiece? : OsText → Option Component
  | [] => none
  | [dot] => none
  | [dot, dot] => some parent
  | piece => some (name piece)

/-- Special steps come before names. -/
def rank : Component → Nat
  | root => 0
  | current => 1
  | parent => 2
  | name _ => 3

instance : Ord Component := ⟨compareLex (compareOn rank) (compareOn bytes)⟩

instance : Std.TransOrd Component :=
  inferInstanceAs (Std.TransCmp (compareLex (compareOn rank) (compareOn bytes)))

theorem eq_of_rank_of_bytes {a b : Component} (rankEq : a.rank = b.rank)
    (bytesEq : a.bytes = b.bytes) : a = b := by
  cases a <;> cases b <;> simp_all [rank, bytes]

instance : Std.LawfulEqOrd Component where
  eq_of_compare {a b} equal := by
    change (compareOn rank a b).then (compareOn bytes a b) = .eq at equal
    rw [Ordering.then_eq_eq] at equal
    exact eq_of_rank_of_bytes (Std.LawfulEqOrd.eq_of_compare equal.1)
      (Std.LawfulEqOrd.eq_of_compare equal.2)

end Component

/-- A path cut at its separators: what it starts from, and the pieces after that. -/
structure Parts where
  start : Option Component
  pieces : List OsText

def parts (path : Path) : Parts :=
  match path.bytes.splitOn separator with
  | [] :: piece :: rest => ⟨some .root, piece :: rest⟩
  | [dot] :: rest => ⟨some .current, rest⟩
  | pieces => ⟨none, pieces⟩

def ofParts : Parts → Path
  | ⟨some .root, pieces⟩ => ⟨separator :: [separator].intercalate pieces⟩
  | ⟨some .current, pieces⟩ => ⟨[separator].intercalate ([dot] :: pieces)⟩
  | ⟨_, pieces⟩ => ⟨[separator].intercalate pieces⟩

def components (path : Path) : List Component :=
  path.parts.start.toList ++ path.parts.pieces.filterMap Component.ofPiece?

instance : Ord Path := ⟨compareOn components⟩

instance : Std.TransOrd Path := inferInstanceAs (Std.TransCmp (compareOn components))

def sameAs (path other : Path) : Bool := path.components == other.components

def isAbsolute (path : Path) : Bool := path.bytes.head? == some separator

/-- `base` is the path itself or a directory above it. -/
def startsWith (path base : Path) : Bool := base.components.isPrefixOf path.components

/-- A piece that stands for no step. -/
def isIdle (piece : OsText) : Bool := (Component.ofPiece? piece).isNone

def trimEnd (pieces : List OsText) : List OsText := (pieces.reverse.dropWhile isIdle).reverse

/-- The pieces from the first step after `count` steps on. -/
def skipSteps : Nat → List OsText → List OsText
  | 0, pieces => pieces.dropWhile isIdle
  | count + 1, pieces => skipSteps count (pieces.dropWhile isIdle).tail

def fileName? (path : Path) : Option OsText :=
  match path.components.getLast? with
  | some (.name name) => some name
  | _ => none

/-- The path without its last step; the root and the empty path have no parent. -/
def parent? (path : Path) : Option Path :=
  match path.parts.start, trimEnd path.parts.pieces with
  | some .current, [] => some ⟨[]⟩
  | _, [] => none
  | start, pieces => some (ofParts ⟨start, trimEnd pieces.dropLast⟩)

/-- What follows the last dot of the file name, unless that dot is its first byte. -/
def extension? (path : Path) : Option OsText := do
  let name ← path.fileName?
  let extension := (name.reverse.takeWhile (· ≠ dot)).reverse
  if extension.length + 1 < name.length then some extension else none

/-- A relative path goes on after one separator; an absolute path stands for itself. -/
def join (base path : Path) : Path :=
  if path.isAbsolute then path
  else if base.bytes.isEmpty || base.bytes.getLast? == some separator then
    ⟨base.bytes ++ path.bytes⟩
  else ⟨base.bytes ++ separator :: path.bytes⟩

/-- Puts a name in the place of the file name, or after a path that has none. -/
def withFileName (path : Path) (name : OsText) : Path :=
  match path.fileName?, path.parent? with
  | some _, some parent => parent.join ⟨name⟩
  | _, _ => path.join ⟨name⟩

/-- What follows `base` in a path that starts with it. -/
def below? (path base : Path) : Option Path :=
  if path.startsWith base then
    match base.components, base.parts.start with
    | [], _ => some (ofParts ⟨path.parts.start, trimEnd path.parts.pieces⟩)
    | steps, none => some (ofParts ⟨none, trimEnd (skipSteps steps.length path.parts.pieces)⟩)
    | _ :: steps, some _ =>
      some (ofParts ⟨none, trimEnd (skipSteps steps.length path.parts.pieces)⟩)
  else none

/-- The length of the longest list of steps that both lists start with. -/
def commonSteps : List Component → List Component → Nat
  | a :: as, b :: bs => if a = b then commonSteps as bs + 1 else 0
  | _, _ => 0

/-- The way from a directory to a path: up to the last common step, then down. -/
def relativeTo (path directory : Path) : Path :=
  let source := directory.components
  let target := path.components
  let common := commonSteps source target
  let up := List.replicate (source.length - common) Component.parent
  (up ++ target.drop common).foldl (fun way step => way.join ⟨step.bytes⟩) ⟨[]⟩

theorem sameAs_iff {path other : Path} :
    path.sameAs other = true ↔ path.components = other.components := by
  simp [sameAs]

theorem compare_eq_iff {path other : Path} :
    compare path other = .eq ↔ path.components = other.components :=
  Std.compare_eq_iff_eq (α := List Component)

end Path
end Hyperlisting
