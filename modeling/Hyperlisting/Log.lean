import Hyperlisting.Log.Escape
import Hyperlisting.Page

/-!
What there is to report. An event is data; its line is made in one place. How long a stage took is
known only to whoever writes the line, so `Event.line` takes it.
-/

namespace Hyperlisting.Log

/-- Levels in the order of weight. -/
inductive Level where
  | debug
  | info
  | warn
deriving DecidableEq

namespace Level

def weight : Level → Nat
  | debug => 0
  | info => 1
  | warn => 2

def name : Level → Text
  | debug => "DEBUG".toList
  | info => "INFO".toList
  | warn => "WARN".toList

end Level

inductive Event where
  | indexing
  | indexed (fileCount classCount functionCount variableCount : Nat)
  | indexingFinished
  | generating
  | createdDirectory (path : Path)
  | progress (done total : Nat)
  | processed (done total : Nat)
  | wrote (count : Nat) (directory : Path)
  | notRendered (count : Nat)
  | generatingFinished
  | fileIndexed (path : Path) (declarations : Nat)
  | dependency (path : Path)
  | produced (path : Path) (producer : Text) (runs : Nat)
  | wrotePage (path : Path)
  | unreadableDirectory (path : Path) (cause : SystemError)
  | unreadable (path : Path) (cause : SystemError)
  | failed (path : Path) (failure : Failure)

namespace Event

def level : Event → Level
  | fileIndexed .. | dependency .. | produced .. | wrotePage .. => .debug
  | unreadableDirectory .. | unreadable .. | failed .. => .warn
  | _ => .info

def field (name : String) (value : Text) : Text := ' ' :: name.toList ++ '=' :: value

def status (fileCount classCount functionCount variableCount : Nat) : Text :=
  "Indexed ".toList ++ Text.ofNat fileCount ++ " files: ".toList ++ Text.ofNat classCount ++
    " classes, ".toList ++ Text.ofNat functionCount ++ " functions, ".toList ++
    Text.ofNat variableCount ++ " variables".toList

/-- What happened, in words; an event that only has fields has no message. -/
def message (elapsed : Text) : Event → Text
  | indexing => "Building index".toList
  | indexed fileCount classCount functionCount variableCount =>
    status fileCount classCount functionCount variableCount
  | indexingFinished => "Finished indexing in: ".toList ++ elapsed
  | generating => "Generating HTML".toList
  | createdDirectory path => "Created directory: ".toList ++ path.text
  | progress done total => "progress ".toList ++ Text.ofNat (done * 100 / total) ++ ['%']
  | processed done total =>
    "processed ".toList ++ Text.ofNat done ++ " of ".toList ++ Text.ofNat total ++
      " files in ".toList ++ elapsed
  | wrote count directory =>
    "Wrote ".toList ++ Text.ofNat count ++ " files to ".toList ++ directory.text
  | notRendered count => Text.ofNat count ++ " files could not be rendered".toList
  | generatingFinished => "Finished generating HTML in: ".toList ++ elapsed
  | fileIndexed .. => "indexed".toList
  | dependency .. => "dependency only, not rendered".toList
  | produced .. => []
  | wrotePage .. => "wrote page".toList
  | unreadableDirectory .. => "skipping unreadable path".toList
  | unreadable .. => "skipping unreadable file".toList
  | failed _ (.write ..) => "Failed to write".toList
  | failed .. => "Failed to read".toList

def fields : Event → List (String × Text)
  | progress done total | processed done total =>
    [("done", Text.ofNat done), ("total", Text.ofNat total)]
  | fileIndexed path declarations =>
    [("path", path.text), ("declarations", Text.ofNat declarations)]
  | dependency path | wrotePage path => [("path", path.text)]
  | produced path producer runs =>
    [("path", path.text), ("producer", quoted producer), ("runs", Text.ofNat runs)]
  | unreadableDirectory path cause | unreadable path cause =>
    [("path", path.text), ("error", cause.message)]
  | failed path failure => [("path", path.text), ("error", failure.describe)]
  | _ => []

/-- The event as one line: level, message and fields, with a blank before each of these that is
there. Controls are spelled out in the message only. -/
def line (event : Event) (elapsed : Text) : Text :=
  let message := escapeControls (event.message elapsed)
  event.level.name ++ (if message.isEmpty then [] else ' ' :: message) ++
    event.fields.flatMap fun (name, value) => field name value

end Event
end Hyperlisting.Log
