import CompiScript.Analysis.Visit
import CompiScript.Dot.Rendering
import CompiScript.Files.Basic
import CompiScript.Log.Console
import CompiScript.Parser.Basic

namespace CompiScript

structure Report where
  logger : Log.Logger
  records : List Log.Record
  result : Option String
  problem : Option String
deriving DecidableEq, Repr

namespace Compile

open Log

def opening (path : String) (debug : Bool) : Record :=
  ⟨.info, "Starting " ++ (if debug then "debug" else "compilation") ++ " for " ++ path ++ "..."⟩

def drawing (path : String) : Record :=
  Dot.Rendering.record
    ⟨"parse_tree_" ++ Text.Path.stem (Text.Path.baseName path), "png", "src/Output"⟩

structure Ending where
  log : Journal
  result : Option String
  problem : Option String

def faulty (log : Journal) (message : String) : Ending :=
  ⟨log.note ⟨.error, message⟩, none, some ("Error: " ++ message)⟩

def misspelt (log : Journal) (e : SyntaxError) : Ending :=
  let message := "Syntax error: " ++ e.message
  ⟨log.note ⟨.error, message⟩, none, some message⟩

def conclude (log : Journal) : Except AnalysisError Value → Ending
  | .error e => faulty log e.message
  | .ok _ =>
    ⟨log.note ⟨.success, "Compilation completed: No errors found."⟩,
      some "Compilation successful", none⟩

def check (log : Journal) (tree : Tree) : Ending :=
  let (outcome, state) := (AnalysisState.startWith log).analyse tree
  conclude state.log outcome

def text (path : String) (log : Journal) (source : String) : Ending :=
  match parseText .program source with
  | .error e => misspelt log e
  | .ok d =>
    let log := log.note ⟨.success, "Parsing completed: No syntax errors found."⟩
    check (log.note (drawing path)) d.tree

def file (path : String) (content : Except FileError Text.Bytes) (log : Journal) : Ending :=
  match content with
  | .error e => faulty log e.message
  | .ok bytes =>
    match Text.decodeAscii bytes with
    | .error e => faulty log e.message
    | .ok source => text path log source

def lowest (debug : Bool) : Level :=
  if debug then .debug else .info

/-- Sets the log up and compiles a file; without `debug` the log keeps no remarks. -/
def run (logger : Logger) (path : String) (content : Except FileError Text.Bytes) (debug : Bool) :
    Report :=
  let logger := logger.setUp (lowest debug).number
  let ending := file path content (Journal.note ⟨logger.lowest, []⟩ (opening path debug))
  ⟨logger, ending.log.records, ending.result, ending.problem⟩

end Compile

end CompiScript
