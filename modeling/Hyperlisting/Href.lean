import Hyperlisting.Run

/-!
Links between pages. The way from the linking page's directory to the target is written segment by
segment with percent escapes, each as it is shown, and a named place follows after `#`.
-/

namespace Hyperlisting.Href

/-- Bytes that stand for themselves: visible ASCII but for the marks that URI syntax or markup
gives a meaning, and the backslash. -/
def isPlain (byte : UInt8) : Bool :=
  0x20 < byte && byte < 0x7F &&
    !"\"#%<>?`\x7b\x7d/\\".toList.contains (Char.ofNat byte.toNat)

def percentByte (byte : UInt8) : Text :=
  let digit (n : Nat) : Char := if n < 10 then Char.ofNat (48 + n) else Char.ofNat (55 + n)
  ['%', digit (byte.toNat / 16), digit (byte.toNat % 16)]

def encodeByte (byte : UInt8) : Text :=
  if isPlain byte then [Char.ofNat byte.toNat] else percentByte byte

/-- One segment of a way, or a fragment. -/
def encode (s : Text) : Text := s.utf8.flatMap encodeByte

def encodePath (path : Path) : Text :=
  ['/'].intercalate (path.components.map fun step => encode step.text)

/-- A link on `page`. A page that links to itself names only the place, or its own file if there
is no place to name. -/
def relative (page : Path) (destination : Destination) : Text :=
  let way :=
    if destination.page.sameAs page then []
    else encodePath (destination.page.relativeTo (page.parent?.getD ⟨[]⟩))
  match destination.fragment with
  | some fragment => way ++ '#' :: encode fragment
  | none => if way.isEmpty then encode (OsText.text (page.fileName?.getD [])) else way

end Hyperlisting.Href
