import Hyperlisting.Run

/-!
Compositions: a text cut into spans, each with the runs that cover it, outermost first. Runs are
named by their place in the composition's table.
-/

namespace Hyperlisting

/-- Whether links lie inside lexical highlights or outside them. -/
inductive Nesting where
  | linksInnermost
  | linksOutermost
deriving DecidableEq

/-- The outer category has the lower rank. -/
def Nesting.rank : Nesting → Category → Nat
  | linksInnermost, .lexical => 0
  | linksInnermost, .link => 1
  | linksOutermost, .link => 0
  | linksOutermost, .lexical => 1

/-- A piece of the text that no run starts or ends within. -/
structure Span where
  start : Nat
  stop : Nat
  /-- The runs that cover the span, outermost first. -/
  active : List Nat
  /-- The empty runs at the span's start. -/
  markers : List Nat

def Span.isPlain (span : Span) : Bool := span.active.isEmpty && span.markers.isEmpty

structure Composition where
  /-- The table of runs, in order of production. -/
  runs : Array Run
  /-- Consecutive, from the start of the text to its end. -/
  spans : List Span
  /-- The empty runs at the end of the text. -/
  trailing : List Nat

end Hyperlisting
