import Hyperlisting.Run
import Hyperlisting.SystemError
import Hyperlisting.Template

/-!
Pages: one document per source file. The page of a source lies below the output directory where
the source lies below the root, with `.html` after its name.
-/

namespace Hyperlisting

structure Page where
  source : Path
  output : Path
  html : Text

/-- Why no page comes out of a source file. -/
inductive Failure where
  | read (path : Path) (cause : SystemError)
  | write (path : Path) (cause : SystemError)
  | run (path : Path) (cause : Run.Fault)
  | template (cause : Template.Fault)
  /-- The file has no place below the output directory. -/
  | outsideRoot (path root : Path)

namespace Failure

def message : Failure → Text
  | read path _ => "failed to read ".toList ++ path.text
  | write path _ => "failed to write ".toList ++ path.text
  | run path _ => "malformed style run for ".toList ++ path.text
  | template cause => cause.message
  | outsideRoot path root =>
    path.text ++ " is not under the render root ".toList ++ root.text

def cause? : Failure → Option Text
  | read _ cause | write _ cause => some cause.message
  | run _ cause => some cause.message
  | template _ | outsideRoot _ _ => none

def describe (failure : Failure) : Text :=
  failure.message ++ (failure.cause?.map (": ".toList ++ ·)).getD []

/-- Trouble with one file. Any other failure is a mistake in what makes the pages. -/
def isRecoverable : Failure → Bool
  | read _ _ | write _ _ => true
  | run _ _ | template _ | outsideRoot _ _ => false

end Failure

/-- Where sources lie and where their pages go. -/
structure Layout where
  root : Path
  output : Path

namespace Layout

/-- Stands after the name of the source, extension included. -/
def pageSuffix : OsText := ".html".toList

def pagePath (layout : Layout) (source : Path) : Except Failure Path :=
  match source.below? layout.root with
  | none => .error (.outsideRoot source layout.root)
  | some relative =>
    match relative.fileName? with
    | none => .error (.outsideRoot source layout.root)
    | some name => .ok ((layout.output.join relative).withFileName (name ++ pageSuffix))

end Layout
end Hyperlisting
