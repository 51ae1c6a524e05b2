import Hyperlisting.Log

/-!
Counting finished files. A line is due after every so many files, but not after the last: the
final count has a line of its own.
-/

namespace Hyperlisting

structure Progress where
  total : Nat
  /-- Files between two lines. -/
  interval : Nat
  done : Nat
  interval_pos : 0 < interval

namespace Progress

/-- An interval of zero counts as one. -/
def start (total interval : Nat) : Progress where
  total
  interval := max interval 1
  done := 0
  interval_pos := by omega

def tick (progress : Progress) : Progress := { progress with done := progress.done + 1 }

/-- The line that is due at this count. -/
def due (progress : Progress) : List Log.Event :=
  if progress.done % progress.interval = 0 && progress.done < progress.total then
    [.progress progress.done progress.total]
  else []

def finished (progress : Progress) : Log.Event := .processed progress.done progress.total

end Progress
end Hyperlisting
