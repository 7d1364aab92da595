import CompiScript.Log.Format
import CompiScript.Log.Record
import CompiScript.Text.Blank

namespace CompiScript.Log

inductive ConsoleCall where
  | unlock
  | lock
  | insert (text : String)
  | scroll
deriving DecidableEq, Repr

namespace ConsoleCall

def text : ConsoleCall → String
  | unlock => "config normal"
  | lock => "config disabled"
  | insert _ => "insert end"
  | scroll => "see end"

def inserted? : ConsoleCall → Option String
  | insert t => some t
  | _ => none

end ConsoleCall

def output (text : String) : List ConsoleCall :=
  [.unlock, .insert text, .scroll, .lock]

inductive Handler where
  | console
deriving DecidableEq, Repr

def Handler.calls (r : Record) : Handler → List ConsoleCall
  | console => output r.line

structure Logger where
  lowest : Int
  handlers : List Handler
  redirected : Bool
deriving DecidableEq, Repr

namespace Logger

def start : Logger :=
  ⟨Level.warning.number, [], false⟩

def clear (l : Logger) : Logger :=
  if l.handlers.isEmpty then l else { l with handlers := [] }

def setUp (l : Logger) (lowest : Int) : Logger :=
  ⟨lowest, l.clear.handlers ++ [.console], true⟩

def hand (l : Logger) (r : Record) : List ConsoleCall :=
  l.handlers.flatMap (Handler.calls r)

def emit (l : Logger) (level : Level) (message : String) (args : List Argument) :
    Except FormatError (List ConsoleCall) :=
  if l.lowest ≤ (level.number : Int) then
    (format message args).map fun text => l.hand ⟨level, text⟩
  else .ok []

def write (l : Logger) (text : String) : List ConsoleCall :=
  if l.redirected && !Text.isBlank text then output (text ++ "\n") else []

def print (l : Logger) (text : String) : List ConsoleCall :=
  l.write text ++ l.write "\n"

end Logger

inductive LevelError where
  | unknown (name : String)
  | notLevel (text : String)
deriving DecidableEq, Repr

def LevelError.message : LevelError → String
  | unknown name => "Unknown level: " ++ Text.quoted name
  | notLevel text => "Level not an integer or a valid string: " ++ text

def lowestNamed (name : String) : Except LevelError Int :=
  if name = "NOTSET" then .ok 0
  else if name = "WARN" then .ok Level.warning.number
  else if name = "FATAL" then .ok Level.critical.number
  else
    match Level.all.find? fun l => l.name == name with
    | some l => .ok l.number
    | none => .error (.unknown name)

def lowest (a : Argument) : Except LevelError Int :=
  match a, a.whole? with
  | .text name, _ => lowestNamed name
  | _, some n => .ok n
  | _, none => .error (.notLevel (a.exact Text.quoted))

end CompiScript.Log
