import CompiScript.Analysis.Error
import CompiScript.Log.Record
import CompiScript.Scope.Inference

namespace CompiScript

structure AnalysisState where
  scopes : Scopes
  inPrint : Bool
  inReturn : Bool
  log : Log.Journal
deriving Repr

namespace AnalysisState

def start : AnalysisState :=
  ⟨Scopes.start, false, false, ⟨Log.Level.debug.number, []⟩⟩

def startWith (log : Log.Journal) : AnalysisState :=
  { start with log := log }

end AnalysisState

abbrev Analysis := ExceptT AnalysisError (StateM AnalysisState)

namespace Analysis

def runFrom {α : Type} (a : Analysis α) (s : AnalysisState) :
    Except AnalysisError α × AnalysisState :=
  (ExceptT.run a).run s

def remark (text : String) : Analysis Unit :=
  modify fun s => { s with log := s.log.note ⟨.debug, text⟩ }

def modifyScopes (f : Scopes → Scopes) : Analysis Unit :=
  modify fun s => { s with scopes := f s.scopes }

def getScopes : Analysis Scopes :=
  return (← get).scopes

def currentText : Analysis String :=
  return (← getScopes).current.describe

def find? (name : String) (category : Category) : Analysis (Option Symbol) :=
  return (← getScopes).find? name (some category)

def check (e : Except AnalysisError Unit) : Analysis Unit :=
  match e with
  | .ok _ => return
  | .error e => throw e

def checkRemarking (e : Except AnalysisError (List String)) : Analysis Unit :=
  match e with
  | .ok texts => texts.forM remark
  | .error e => throw e

def tryScopes (f : Scopes → Except SymbolError Scopes) : Analysis Unit := do
  match f (← getScopes) with
  | .ok scopes => modifyScopes fun _ => scopes
  | .error e => throw (.symbol e)

def declare (name : String) (entity : Entity) : Analysis Reference := do
  tryScopes fun s => s.add (Symbol.ofEntity name entity)
  return (← getScopes).reference name

def symbolOf (r : Reference) : Analysis (Option Symbol) :=
  return (← getScopes).at? r

/-- Puts the symbol of a function in the place of the one that is found by its name. -/
def updateSymbol (function : Reference) : Analysis Unit :=
  tryScopes fun s =>
    match s.at? function with
    | some symbol => s.update function.name symbol (some .functions)
    | none => .error (.notFound function.name)

def enter (name : String) : Analysis Unit :=
  modifyScopes fun s => s.enter name

def exit : Analysis Unit :=
  modifyScopes Scopes.exit

end Analysis

end CompiScript
