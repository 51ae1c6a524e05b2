import Hyperlisting.Text

/-!
Durations for people to read. Parts that are zero are left out; milliseconds are shown only below
a minute.
-/

namespace Hyperlisting

structure Duration where
  millis : Nat

namespace Duration

def ofNanos (nanos : Nat) : Duration := ⟨nanos / 1000000⟩

/-- A number with its unit; nothing for zero. -/
def part (amount : Nat) (unit : Char) : List Text :=
  if amount = 0 then [] else [Text.ofNat amount ++ [unit]]

def text (duration : Duration) : Text :=
  let hours := duration.millis / 3600000
  let minutes := duration.millis % 3600000 / 60000
  let seconds := duration.millis % 60000 / 1000
  let millis := duration.millis % 1000
  let large := part hours 'h' ++ part minutes 'm' ++ part seconds 's'
  let small :=
    if hours = 0 && minutes = 0 && (millis > 0 || large.isEmpty) then
      [Text.ofNat millis ++ ['m', 's']]
    else []
  [' '].intercalate (large ++ small)

end Duration
end Hyperlisting
