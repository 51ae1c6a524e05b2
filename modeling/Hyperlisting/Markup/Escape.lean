import Hyperlisting.Text

/-!
Text inside markup. What would start or end a tag, a character reference or a quoted value is
written as a character reference; inside attribute values line ends are too, so a line of the
markup never ends inside a tag.
-/

namespace Hyperlisting.Markup

def escapeChar : Char → Text
  | '&' => "&amp;".toList
  | '<' => "&lt;".toList
  | '>' => "&gt;".toList
  | '"' => "&quot;".toList
  | '\'' => "&#39;".toList
  | c => [c]

/-- Text as it stands between tags. -/
def escape (s : Text) : Text := s.flatMap escapeChar

def escapeAttributeChar : Char → Text
  | '\n' => "&#10;".toList
  | '\r' => "&#13;".toList
  | c => escapeChar c

/-- Text as it stands in a quoted attribute value. -/
def escapeAttribute (s : Text) : Text := s.flatMap escapeAttributeChar

@[simp] theorem escape_nil : escape [] = [] := rfl

@[simp] theorem escape_cons (c : Char) (s : Text) : escape (c :: s) = escapeChar c ++ escape s :=
  rfl

@[simp] theorem escape_append (s t : Text) : escape (s ++ t) = escape s ++ escape t :=
  List.flatMap_append

@[simp] theorem escapeAttribute_nil : escapeAttribute [] = [] := rfl

@[simp] theorem escapeAttribute_cons (c : Char) (s : Text) :
    escapeAttribute (c :: s) = escapeAttributeChar c ++ escapeAttribute s :=
  rfl

end Hyperlisting.Markup
