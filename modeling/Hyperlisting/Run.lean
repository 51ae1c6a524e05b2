import Hyperlisting.Path

/-!
Runs: ranges of a source text with a treatment. Several producers may annotate one text with runs
that overlap in any way. A run is sound for a text when its ends are in order and both are
boundaries of the text (`check_eq_ok_iff`).
-/

namespace Hyperlisting

/-- What a link leads to: a page of the listing, and perhaps a named place on it. -/
structure Destination where
  page : Path
  fragment : Option Text
deriving DecidableEq

/-- The two families of treatment. Nesting puts one of them outside the other. -/
inductive Category where
  | lexical
  | link
deriving DecidableEq

/-- How a range is shown: with a class of the style sheet, as a link, or as a place that links lead
to. -/
inductive Treatment where
  | style (className : Text)
  | link (destination : Destination)
  | anchor (id : Text)
deriving DecidableEq

/-- A half-open byte range of a text and how it is shown. -/
structure Run where
  start : Nat
  stop : Nat
  treatment : Treatment
  /-- Shown while the pointer rests on the range. -/
  tooltip : Option Text := none
deriving DecidableEq

namespace Destination

/-- Pages are told apart by their components. -/
def sameAs (destination other : Destination) : Bool :=
  destination.page.sameAs other.page && destination.fragment == other.fragment

end Destination

namespace Treatment

def category : Treatment → Category
  | style _ => .lexical
  | link _ | anchor _ => .link

def sameAs : Treatment → Treatment → Bool
  | style className, style other => className == other
  | link destination, link other => destination.sameAs other
  | anchor id, anchor other => id == other
  | _, _ => false

theorem sameAs_trans {a b c : Treatment} (first : a.sameAs b = true) (second : b.sameAs c = true) :
    a.sameAs c = true := by
  cases a <;> cases b <;> cases c <;>
    simp_all [sameAs, Destination.sameAs, Path.sameAs_iff]

end Treatment

namespace Run

/-- Why a run does not fit a text. -/
inductive Fault where
  | inverted (start stop : Nat)
  | outOfBounds (stop size : Nat)
  | insideCharacter (offset : Nat)
deriving DecidableEq

def Fault.message : Fault → Text
  | inverted start stop =>
    "style run starts after it ends: [".toList ++ Text.ofNat start ++ ", ".toList ++
      Text.ofNat stop ++ ")".toList
  | outOfBounds stop size =>
    "style run ends at ".toList ++ Text.ofNat stop ++ ", past the end of the source (".toList ++
      Text.ofNat size ++ " bytes)".toList
  | insideCharacter offset =>
    "style run boundary ".toList ++ Text.ofNat offset ++ " is not on a character boundary".toList

/-- Zero for a run that starts after it ends. -/
def size (run : Run) : Nat := run.stop - run.start

def isEmpty (run : Run) : Bool := run.start == run.stop

def category (run : Run) : Category := run.treatment.category

/-- Both runs treat the same range in the same way, whatever their tooltips. -/
def repeats (run other : Run) : Bool :=
  run.start == other.start && run.stop == other.stop && run.treatment.sameAs other.treatment

theorem start_eq_of_repeats {run other : Run} (repeats : run.repeats other = true) :
    run.start = other.start := by
  simp_all [Run.repeats]

theorem repeats_trans {a b c : Run} (first : a.repeats b = true) (second : b.repeats c = true) :
    a.repeats c = true := by
  simp only [repeats, Bool.and_eq_true, beq_iff_eq] at *
  exact ⟨⟨first.1.1.trans second.1.1, first.1.2.trans second.1.2⟩,
    Treatment.sameAs_trans first.2 second.2⟩

/-- The first way in which a run does not fit a text of a size and with some boundaries: its order,
its bounds, its start, its end. -/
def checkWithin (size : Nat) (isBoundary : Nat → Bool) (run : Run) : Except Fault Unit :=
  if run.stop < run.start then .error (.inverted run.start run.stop)
  else if size < run.stop then .error (.outOfBounds run.stop size)
  else if !isBoundary run.start then .error (.insideCharacter run.start)
  else if !isBoundary run.stop then .error (.insideCharacter run.stop)
  else .ok ()

def check (source : Text) (run : Run) : Except Fault Unit :=
  run.checkWithin source.byteSize source.isBoundary

theorem check_eq_ok_iff {source : Text} {run : Run} :
    run.check source = .ok () ↔
      run.start ≤ run.stop ∧ run.stop ≤ source.byteSize ∧
        source.isBoundary run.start = true ∧ source.isBoundary run.stop = true := by
  unfold check checkWithin
  split
  · simp only [reduceCtorEq, false_iff]
    omega
  split
  · simp only [reduceCtorEq, false_iff]
    omega
  split
  · simp_all
  split <;> simp_all

/-- Checks several runs. The first that does not fit is the fault. -/
def checkAll (source : Text) (runs : List Run) : Except Fault Unit :=
  let marks := source.marks
  let size := source.byteSize
  runs.forM (checkWithin size fun offset => marks[offset]?.getD false)

theorem checkAll_eq_forM (source : Text) (runs : List Run) :
    checkAll source runs = runs.forM (check source) := by
  simp only [checkAll, Text.getD_marks]
  rfl

end Run

/-- What annotates files. It sees nothing of a file but its path and text. -/
structure Producer where
  name : Text
  runs : (path : Path) → (source : Text) → List Run

end Hyperlisting
