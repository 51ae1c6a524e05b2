/-!
Sets of code points as closed ranges, ascending and apart.
-/

namespace Hyperlisting.Unicode

/-- Closed ranges of code points, in ascending order. -/
abbrev Ranges := List (Nat × Nat)

namespace Ranges

/-- Looks no further than the first range that starts above the code point. -/
def contains : Ranges → Nat → Bool
  | [], _ => false
  | (first, last) :: rest, n => first ≤ n && (n ≤ last || contains rest n)

/-- Every range is in order, and a gap lies between any two. -/
def wellFormed : Ranges → Bool
  | [] => true
  | [(first, last)] => first ≤ last
  | (first, last) :: (next, nextLast) :: rest =>
    first ≤ last && last + 1 < next && wellFormed ((next, nextLast) :: rest)

end Ranges
end Hyperlisting.Unicode
