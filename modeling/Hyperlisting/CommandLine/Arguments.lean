import Hyperlisting.Log
import Hyperlisting.Site.Job

/-!
Reading the arguments of the command. Arguments are taken from the left; asking for help or the
version ends the reading at once, and so does the first mistake. Every switch may be given once.
-/

namespace Hyperlisting.CommandLine

inductive Ending where
  | help
  | version
  | misuse
deriving DecidableEq

inductive Switch where
  | jobs
  | linksOutermost
  | verbose
  | quiet
  | help
  | version
deriving DecidableEq

namespace Switch

def ofLetter? : Char → Option Switch
  | 'j' => some jobs
  | 'v' => some verbose
  | 'q' => some quiet
  | 'h' => some help
  | 'V' => some version
  | _ => none

/-- Names are never shortened. -/
def ofName? (name : Text) : Option Switch :=
  match String.ofList name with
  | "jobs" => some jobs
  | "links-outermost" => some linksOutermost
  | "verbose" => some verbose
  | "quiet" => some quiet
  | "help" => some help
  | "version" => some version
  | _ => none

end Switch

structure Arguments where
  paths : List Text := []
  workers : Option Nat := none
  linksOutermost : Bool := false
  verbose : Bool := false
  quiet : Bool := false

namespace Arguments

/-- At most three paths, none of them empty. -/
def addPath (arguments : Arguments) (path : Text) : Except Ending Arguments :=
  if path.isEmpty || arguments.paths.length = 3 then .error .misuse
  else .ok { arguments with paths := arguments.paths ++ [path] }

/-- A number of 64 bits; a plus sign may stand before it. -/
def number? (value : Text) : Option Nat :=
  let digits := match value with
    | '+' :: rest => rest
    | _ => value
  if digits.isEmpty || !digits.all Char.isDigit then none
  else
    let number := digits.foldl (fun n c => n * 10 + (c.toNat - '0'.toNat)) 0
    if number < UInt64.size then some number else none

def setWorkers (arguments : Arguments) (value : Text) : Except Ending Arguments :=
  match arguments.workers, number? value with
  | none, some workers => .ok { arguments with workers := some workers }
  | _, _ => .error .misuse

def set (arguments : Arguments) : Switch → Except Ending Arguments
  | .linksOutermost =>
    if arguments.linksOutermost then .error .misuse
    else .ok { arguments with linksOutermost := true }
  | .verbose =>
    if arguments.verbose then .error .misuse else .ok { arguments with verbose := true }
  | .quiet => if arguments.quiet then .error .misuse else .ok { arguments with quiet := true }
  | .help => .error .help
  | .version => .error .version
  | .jobs => .error .misuse

/-- Letters after one dash. The rest after `j` is its value, with or without `=`; if nothing is
left, the value is the next argument, as the flag tells. -/
def addLetters (arguments : Arguments) : Text → Except Ending (Arguments × Bool)
  | [] => .ok (arguments, false)
  | letter :: rest =>
    match Switch.ofLetter? letter, rest with
    | none, _ => .error .misuse
    | some .jobs, [] => .ok (arguments, true)
    | some .jobs, '=' :: value => (arguments.setWorkers value).map (·, false)
    | some .jobs, value => (arguments.setWorkers value).map (·, false)
    | some switch, rest =>
      match arguments.set switch with
      | .ok arguments => arguments.addLetters rest
      | .error ending => .error ending

/-- A name after two dashes, perhaps with `=` and a value. The flag tells that the value is the
next argument. -/
def addName (arguments : Arguments) (text : Text) : Except Ending (Arguments × Bool) :=
  let name := text.takeWhile (· ≠ '=')
  match Switch.ofName? name, text.drop name.length with
  | some .jobs, [] => .ok (arguments, true)
  | some .jobs, _ :: value => (arguments.setWorkers value).map (·, false)
  | some switch, [] => (arguments.set switch).map (·, false)
  | _, _ => .error .misuse

/-- One argument. A dash alone is a path. -/
def add (arguments : Arguments) : Text → Except Ending (Arguments × Bool)
  | '-' :: '-' :: text => arguments.addName text
  | '-' :: letter :: letters => arguments.addLetters (letter :: letters)
  | path => (arguments.addPath path).map (·, false)

/-- Reads arguments. After two dashes that stand alone everything is a path. -/
def read (arguments : Arguments) : List Text → Except Ending Arguments
  | [] => .ok arguments
  | text :: rest =>
    if text = "--".toList then rest.foldlM addPath arguments
    else
      match arguments.add text, rest with
      | .error ending, _ => .error ending
      | .ok (arguments, false), rest => arguments.read rest
      | .ok (_, true), [] => .error .misuse
      | .ok (arguments, true), value :: rest =>
        if value.head? = some '-' then .error .misuse
        else
          match arguments.setWorkers value with
          | .ok arguments => arguments.read rest
          | .error ending => .error ending

def level (arguments : Arguments) : Log.Level :=
  if arguments.verbose then .debug else if arguments.quiet then .warn else .info

def request? (arguments : Arguments) : Option Request :=
  if arguments.verbose && arguments.quiet then none
  else
    let nesting := if arguments.linksOutermost then .linksOutermost else .linksInnermost
    let workers := arguments.workers.getD 0
    match arguments.paths with
    | [library, target] => some { library := ⟨library⟩, target := ⟨target⟩, nesting, workers }
    | [library, target, output] =>
      some { library := ⟨library⟩, target := ⟨target⟩, output := some ⟨output⟩, nesting, workers }
    | _ => none

end Arguments
end Hyperlisting.CommandLine
