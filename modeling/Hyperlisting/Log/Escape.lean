import Hyperlisting.Text
import Hyperlisting.Unicode.GraphemeExtend
import Hyperlisting.Unicode.Printable

/-!
Text as it stands in a log line. A message keeps all characters but those that a terminal may take
for a command. A quoted value shows every character that would not show as itself, or would break
the line or the quotes, as an escape.
-/

namespace Hyperlisting.Log

def numbered (c : Char) : Text :=
  "\\u\x7b".toList ++ Nat.toDigits 16 c.toNat ++ ['\x7d']

/-- Bell, backspace, form feed, escape, delete and the controls above them are spelled out. -/
def escapeControl : Char → Text
  | '\x07' => "\\x07".toList
  | '\x08' => "\\x08".toList
  | '\x0c' => "\\x0c".toList
  | '\x1b' => "\\x1b".toList
  | '\x7f' => "\\x7f".toList
  | c => if 0x80 ≤ c.toNat && c.toNat ≤ 0x9F then numbered c else [c]

def escapeControls (s : Text) : Text := s.flatMap escapeControl

def escapeQuoted : Char → Text
  | '"' => "\\\"".toList
  | '\\' => "\\\\".toList
  | '\n' => "\\n".toList
  | '\r' => "\\r".toList
  | '\t' => "\\t".toList
  | '\x00' => "\\0".toList
  | c => if Unicode.isPrintable c && !Unicode.isGraphemeExtend c then [c] else numbered c

def quoted (s : Text) : Text := '"' :: s.flatMap escapeQuoted ++ ['"']

end Hyperlisting.Log
