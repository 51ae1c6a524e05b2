import Hyperlisting.Text

/-!
Places in a text. A place is known from the characters before it alone, one after the other, so a
reader of a text can carry its place along. Lines end at `'\n'` alone.
-/

namespace Hyperlisting

structure Place where
  /-- Bytes before the place. -/
  offset : Nat
  /-- The number of the line, from 1. -/
  line : Nat
  /-- Bytes since the start of the line. -/
  column : Nat
  /-- Nothing but spaces and tabs since the start of the line. -/
  startsLine : Bool
  /-- The character before the place. -/
  previous : Option Char
deriving DecidableEq

namespace Place

def start : Place := ⟨0, 1, 0, true, none⟩

def next (place : Place) (c : Char) : Place where
  offset := place.offset + c.utf8Size
  line := if c = '\n' then place.line + 1 else place.line
  column := if c = '\n' then 0 else place.column + c.utf8Size
  startsLine := c = '\n' || place.startsLine && (c = ' ' || c = '\t')
  previous := some c

def after (before : Text) : Place := before.foldl next start

theorem foldl_next_append (place : Place) (before more : Text) :
    (before ++ more).foldl next place = more.foldl next (before.foldl next place) :=
  List.foldl_append

theorem offset_foldl_next (place : Place) (before : Text) :
    (before.foldl next place).offset = place.offset + before.byteSize := by
  induction before generalizing place with
  | nil => rfl
  | cons c before ih =>
    simp only [List.foldl_cons, ih, next, Text.byteSize_cons]
    omega

theorem line_foldl_next (place : Place) (before : Text) :
    (before.foldl next place).line = place.line + before.count '\n' := by
  induction before generalizing place with
  | nil => rfl
  | cons c before ih =>
    simp only [List.foldl_cons, ih, next, List.count_cons, beq_iff_eq]
    split <;> omega

@[simp] theorem offset_after (before : Text) : (after before).offset = before.byteSize := by
  simp [after, start, offset_foldl_next]

theorem line_after (before : Text) : (after before).line = before.count '\n' + 1 := by
  simp [after, start, line_foldl_next, Nat.add_comm]

end Place

namespace Text

def placeAt (s : Text) (offset : Nat) : Place := Place.after (s.takeBytes offset)

theorem offset_placeAt {s : Text} {offset : Nat} (boundary : s.isBoundary offset = true) :
    (s.placeAt offset).offset = offset := by
  simp [placeAt, byteSize_takeBytes boundary]

end Text
end Hyperlisting
