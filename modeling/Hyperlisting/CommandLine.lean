import Hyperlisting.CommandLine.Arguments
import Hyperlisting.Site.Generation

/-!
The command: from its arguments and a tree of files to what it prints, its exit code and the tree
it leaves. Bad arguments are answered with a reminder of the right ones and do not count as failure.
-/

namespace Hyperlisting.CommandLine

/-- Names are listed as they are shown. -/
instance : Coe Location (List Text) := ⟨List.map OsText.text⟩

structure Outcome where
  exitCode : UInt32 := 0
  output : Text := []
  /-- What goes to the error stream: the log, and an error that ended the command. -/
  errors : Text := []

def version : Text := "srcview 0.1.0\n".toList

def help : Text := Page.unlines [
  "Generate a cross-referenced, syntax-highlighted HTML view of source files",
  "",
  "Usage: srcview [OPTIONS] <LIBRARY_ROOT> <FILE_OR_DIR> [OUTPUT]",
  "",
  "Arguments:",
  "  <LIBRARY_ROOT>  Root of the library the sources depend on (indexed, not rendered)",
  "  <FILE_OR_DIR>   File or directory to render",
  "  [OUTPUT]        Output directory (default: ./html)",
  "",
  "Options:",
  "  -j, --jobs <JOBS>      Worker threads (default: number of cores) [default: 0]",
  "      --links-outermost  Nest links outside lexical highlights instead of inside them",
  "  -v, --verbose          Log per-file detail",
  "  -q, --quiet            Only log warnings and errors",
  "  -h, --help             Print help",
  "  -V, --version          Print version"]

def usage : Text := Page.unlines [
  "Usage:  srcview <library-root> <file-or-dir> [output-dir]",
  "  first arg specifies the root of the library the sources depend on",
  "  second arg specifies the file or directory to generate pages for",
  "  third arg specifies the output directory (default: ./html)",
  "Example that renders just the email package:",
  "  srcview ./Lib ./Lib/email"]

def Ending.outcome : Ending → Outcome
  | help => { output := CommandLine.help }
  | version => { output := CommandLine.version }
  | misuse => { errors := usage }

def errorText (message : Text) (cause : Option Text) : Text :=
  "Error: ".toList ++ message ++ ['\n'] ++
    (cause.map fun cause => "\nCaused by:\n    ".toList ++ cause ++ ['\n']).getD []

/-- The lines of events of at least a level. -/
def logText (level : Log.Level) (elapsed : Text) (events : Array Log.Event) : Text :=
  (events.toList.filter (level.weight ≤ ·.level.weight)).flatMap fun event =>
    event.line elapsed ++ ['\n']

/-- What the arguments lead to: an end, or a job and the least level that is logged. -/
inductive Plan where
  | finished (outcome : Outcome)
  | work (level : Log.Level) (job : Job)

def plan (tree : FileTree) (arguments : List Text) : Plan :=
  match Arguments.read {} arguments with
  | .error ending => .finished ending.outcome
  | .ok arguments =>
    match arguments.request? with
    | none => .finished Ending.misuse.outcome
    | some request =>
      match Job.ofRequest tree request with
      | .error fault => .finished { exitCode := 1, errors := errorText fault.message none }
      | .ok job => .work arguments.level job

/-- How a job's last stage ends the command. -/
def ending (result : Except Trouble Report) : Outcome :=
  match result with
  | .ok _ => {}
  | .error trouble => { exitCode := 1, errors := errorText trouble.message trouble.cause? }

/-- The whole command; `elapsed` stands for every duration in the log. -/
def run (elapsed : Text) (tree : FileTree) (arguments : List Text) : Outcome × FileTree :=
  match plan tree arguments with
  | .finished outcome => (outcome, tree)
  | .work level job =>
    let generation := job.generate tree
    let outcome := ending generation.result
    ({ outcome with errors := logText level elapsed generation.events ++ outcome.errors },
      generation.tree)

end Hyperlisting.CommandLine
