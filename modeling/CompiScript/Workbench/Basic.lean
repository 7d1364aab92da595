import CompiScript.Compile
import CompiScript.Workbench.Explorer

/-!
The workbench: an editor for one file, a console for the records of compilations, and an explorer
of folders. Each event changes the workbench and may fail; dialogs that it shows are kept for it.
-/

namespace CompiScript

structure TextArea where
  text : String
  locked : Bool
deriving DecidableEq, Repr

namespace TextArea

def insert (a : TextArea) (s : String) : TextArea :=
  if a.locked then a else { a with text := a.text ++ s }

def clear (a : TextArea) : TextArea :=
  if a.locked then a else { a with text := "" }

def apply (a : TextArea) : Log.ConsoleCall → TextArea
  | .unlock => { a with locked := false }
  | .lock => { a with locked := true }
  | .insert s => a.insert s
  | .scroll => a

def applyAll (a : TextArea) (calls : List Log.ConsoleCall) : TextArea :=
  calls.foldl apply a

end TextArea

inductive Dialog where
  | askFile
  | askFolder
  | error (message : String)
  | info (title message : String)
deriving DecidableEq, Repr

inductive WorkbenchError where
  | file (error : FileError)
  | decode (error : Text.DecodeError)
  | noFocus
deriving DecidableEq, Repr

namespace WorkbenchError

def message : WorkbenchError → String
  | file e => e.message
  | decode e => e.message
  | noFocus => "join() missing 1 required positional argument: 'a'"

end WorkbenchError

structure Workbench where
  files : Files
  title : Option String
  file : Option String
  editor : String
  console : TextArea
  logger : Log.Logger
  explorer : Explorer
  dialogs : List Dialog

inductive Event where
  | compile (debug : Bool)
  | save
  | openFile (answer : String)
  | openFolder (answer : String)
  | expand (place : List Nat)
  | select (place : List Nat)
  | type (text : String)
  | put (path : String) (content : Text.Bytes)
  | makeFolder (path : String)
  | remove (path : String)
  | read (path : String)

namespace Workbench

def ownFiles : Folder :=
  [("src", .folder [("GUI", .folder [("play_icon.png",
    .file [0x89, 0x50, 0x4e, 0x47, 0x0d, 0x0a, 0x1a, 0x0a])])])]

def start (files : Files) : Workbench :=
  ⟨files, none, none, "", ⟨"", true⟩, .start, [], []⟩

def showDialog (w : Workbench) (d : Dialog) : Workbench :=
  { w with dialogs := w.dialogs ++ [d] }

def compile (w : Workbench) (debug : Bool) : Workbench :=
  match w.file with
  | none =>
    w.showDialog (.error "No hay ningún archivo abierto para compilar o debuguear.")
  | some path =>
    let opened := (w.console.apply .unlock).clear
    let report := Compile.run w.logger path (w.files.read path) debug
    let logged := opened.applyAll (report.records.flatMap report.logger.hand)
    let lines := (report.problem.toList ++ report.result.toList).map (· ++ "\n")
    let closed := logged.applyAll (lines.map .insert ++ [.scroll, .lock])
    { w with console := closed, logger := report.logger }

def editorContent (w : Workbench) : String :=
  w.editor ++ "\n"

def save (w : Workbench) : Workbench :=
  match w.file with
  | none => w.showDialog (.error "No hay ningún archivo abierto para guardar.")
  | some path =>
    match w.files.write path (Text.encode w.editorContent) with
    | .error e => w.showDialog (.error ("No se pudo guardar el archivo: " ++ e.message))
    | .ok files =>
      { w with files := files }.showDialog
        (.info "Guardar" ("Archivo guardado exitosamente: " ++ Text.Path.baseName path))

def readText (files : Files) (path : String) : Except WorkbenchError String :=
  match files.read path with
  | .error e => .error (.file e)
  | .ok bytes =>
    match Text.decodeUtf8 bytes with
    | .error e => .error (.decode e)
    | .ok text => .ok (String.ofList (Text.unifyLineEnds text.toList))

def openPath (w : Workbench) (path : String) : Workbench :=
  match readText w.files path with
  | .error e =>
    let line := "Error al abrir el archivo: " ++ e.message ++ "\n"
    { w with console := w.console.applyAll [.unlock, .insert line, .lock] }
  | .ok text =>
    { w with
      editor := text
      file := some path
      title := some ("Compilador - " ++ Text.Path.baseName path) }

def openFile (w : Workbench) (answer : String) : Workbench :=
  let w := w.showDialog .askFile
  if answer.isEmpty then w else w.openPath answer

def load (w : Workbench) (path : String) (place : List Nat) :
    Except WorkbenchError Unit × Workbench :=
  let (outcome, explorer) := Explorer.load w.files path place w.explorer
  (outcome.mapError .file, { w with explorer := explorer })

def openFolder (w : Workbench) (answer : String) : Except WorkbenchError Unit × Workbench :=
  let w := w.showDialog .askFolder
  if answer.isEmpty then (.ok (), w)
  else { w with explorer := [.mk answer []] }.load answer [0]

def pathOf (w : Workbench) (place : List Nat) : Except WorkbenchError String :=
  match Explorer.route place w.explorer with
  | none => .error .noFocus
  | some [] => .error .noFocus
  | some names => .ok (Text.Path.joinAll names)

def expand (w : Workbench) (place : List Nat) : Except WorkbenchError Unit × Workbench :=
  match w.pathOf place with
  | .error e => (.error e, w)
  | .ok path => w.load path place

def select (w : Workbench) (place : List Nat) : Except WorkbenchError Unit × Workbench :=
  match w.pathOf place with
  | .error e => (.error e, w)
  | .ok path => (.ok (), if w.files.isFile path then w.openPath path else w)

def fileText (files : Files) (path : String) : Except WorkbenchError String :=
  match files.read path with
  | .error e => .error (.file e)
  | .ok bytes => (Text.decodeUtf8 bytes).mapError .decode

def putFile (w : Workbench) (path : String) (content : Text.Bytes) :
    Except WorkbenchError Unit × Workbench :=
  if w.files.isFolder path then (.error (.file (.isFolder path)), w)
  else (.ok (), { w with files := w.files.putFile path content })

def removePath (w : Workbench) (path : String) : Except WorkbenchError Unit × Workbench :=
  match w.files.find path with
  | .entry _ => (.ok (), { w with files := w.files.remove path })
  | .missing => (.error (.file (.notFound path)), w)
  | .blocked => (.error (.file (.notFolder path)), w)

def silent (outcome : Except WorkbenchError Unit × Workbench) :
    Except WorkbenchError (Option String) × Workbench :=
  (outcome.1.map fun _ => none, outcome.2)

def step (w : Workbench) (e : Event) : Except WorkbenchError (Option String) × Workbench :=
  let w := { w with dialogs := [] }
  match e with
  | .compile debug => (.ok none, w.compile debug)
  | .save => (.ok none, w.save)
  | .openFile answer => (.ok none, w.openFile answer)
  | .openFolder answer => silent (w.openFolder answer)
  | .expand place => silent (w.expand place)
  | .select place => silent (w.select place)
  | .type text => (.ok none, { w with editor := text })
  | .put path content => silent (w.putFile path content)
  | .makeFolder path => (.ok none, { w with files := w.files.makeFolder path })
  | .remove path => silent (w.removePath path)
  | .read path => ((fileText w.files path).map some, w)

end Workbench

end CompiScript
