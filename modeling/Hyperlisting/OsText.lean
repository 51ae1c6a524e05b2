import Hyperlisting.Text

/-!
Text as the system keeps it: bytes, most often the UTF-8 form of a text. Other bytes are shown with
a replacement character for each beginning of a character that breaks off, and for each byte that
begins none.
-/

namespace Hyperlisting

/-- Names and paths. -/
abbrev OsText := List UInt8

def Text.utf8 (s : Text) : OsText := s.flatMap String.utf8EncodeChar

instance : Coe Text OsText := ⟨Text.utf8⟩

namespace OsText

/-- Shown in place of bytes that are no character. -/
def replacement : Char := '\uFFFD'

/-- The beginning of a character: what its bytes amount to, how many bytes come after the next one,
and the bounds of the next one. -/
structure Beginning where
  value : Nat
  later : Nat
  least : Nat
  greatest : Nat

/-- What the first byte of a character begins that has several. The bounds of the second byte leave
out what fewer bytes could say, surrogates, and numbers past the last character. -/
def begin? (byte : Nat) : Option Beginning :=
  if byte < 0xC2 ∨ 0xF4 < byte then none
  else if byte < 0xE0 then some ⟨byte - 0xC0, 0, 0x80, 0xBF⟩
  else if byte < 0xF0 then
    some ⟨byte - 0xE0, 1, if byte = 0xE0 then 0xA0 else 0x80, if byte = 0xED then 0x9F else 0xBF⟩
  else
    some ⟨byte - 0xF0, 2, if byte = 0xF0 then 0x90 else 0x80, if byte = 0xF4 then 0x8F else 0xBF⟩

/-- What a byte shows that no beginning stands before, and what it begins. -/
def start (byte : Nat) : Text × Option Beginning :=
  if byte < 0x80 then ([Char.ofNat byte], none)
  else
    match begin? byte with
    | some beginning => ([], some beginning)
    | none => ([replacement], none)

/-- What a byte shows after a beginning, and what it leaves begun. -/
def extend (beginning : Beginning) (byte : Nat) : Text × Option Beginning :=
  if beginning.least ≤ byte ∧ byte ≤ beginning.greatest then
    let value := beginning.value * 64 + (byte - 0x80)
    match beginning.later with
    | 0 => ([Char.ofNat value], none)
    | later + 1 => ([], some ⟨value, later, 0x80, 0xBF⟩)
  else (replacement :: (start byte).1, (start byte).2)

def textAfter : Option Beginning → OsText → Text
  | none, [] => []
  | some _, [] => [replacement]
  | none, byte :: rest => (start byte.toNat).1 ++ textAfter (start byte.toNat).2 rest
  | some beginning, byte :: rest =>
    (extend beginning byte.toNat).1 ++ textAfter (extend beginning byte.toNat).2 rest

/-- What is shown of some bytes. -/
def text (bytes : OsText) : Text := textAfter none bytes

/-- The bytes are the UTF-8 form of a text. -/
def IsText (bytes : OsText) : Prop := (text bytes).utf8 = bytes

instance (bytes : OsText) : Decidable (IsText bytes) := inferInstanceAs (Decidable (_ = _))

end OsText
end Hyperlisting
