import CompiScript.Text.Bytes
import CompiScript.Text.Path

namespace CompiScript

inductive FileError where
  | notFound (path : String)
  | isFolder (path : String)
  | notFolder (path : String)
deriving DecidableEq, Repr

namespace FileError

def message : FileError → String
  | notFound path => "[Errno 2] No such file or directory: " ++ Text.quoted path
  | isFolder path => "[Errno 21] Is a directory: " ++ Text.quoted path
  | notFolder path => "[Errno 20] Not a directory: " ++ Text.quoted path

end FileError

inductive Entry where
  | file (content : Text.Bytes)
  | folder (entries : List (String × Entry))

namespace Entry

def isFile : Entry → Bool
  | file _ => true
  | folder _ => false

def isFolder : Entry → Bool
  | file _ => false
  | folder _ => true

end Entry

/-- The names between the slashes of a path, where two dots lead back. A slash at its end asks for a
folder, and one at its head leads from the root. -/
structure Route where
  names : List String
  folderAsked : Bool
  absolute : Bool

namespace Route

def splitSlash : List Char → List (List Char)
  | [] => [[]]
  | c :: cs =>
    if c = '/' then [] :: splitSlash cs
    else
      match splitSlash cs with
      | [] => [[c]]
      | w :: ws => (c :: w) :: ws

def ofPath (path : String) : Route :=
  let words := splitSlash path.toList
  ⟨(words.filter fun w => !w.isEmpty && w ≠ ['.']).map String.ofList,
    1 < words.length && words.getLast?.any (fun w => w.isEmpty || w = ['.']),
    path.toList.head? = some '/'⟩

def back : String :=
  ".."

def turn (way : List String) (name : String) : List String :=
  if name = back then way.dropLast else way ++ [name]

def direct (names : List String) : List String :=
  names.foldl turn []

def turns : List String → List String → List (List String)
  | _, [] => []
  | way, name :: names =>
    if name = back then way :: turns way.dropLast names else turns (way ++ [name]) names

end Route

abbrev Folder := List (String × Entry)

inductive Found where
  | entry (entry : Entry)
  | missing
  | blocked

namespace Folder

/-- Searches from a folder, where `outer` are the folders around it. Around the root there is none,
and from there two dots lead nowhere else. -/
def searchFrom (outer : List Folder) (here : Folder) : List String → Found
  | [] => .entry (.folder here)
  | name :: names =>
    if name = Route.back then
      match outer with
      | [] => searchFrom [] here names
      | up :: outer => searchFrom outer up names
    else
      match here.lookup name with
      | none => .missing
      | some (.file content) => if names.isEmpty then .entry (.file content) else .blocked
      | some (.folder entries) => searchFrom (here :: outer) entries names

def search (root : Folder) (names : List String) : Found :=
  searchFrom [] root names

def setEntry (entries : Folder) (name : String) (entry : Entry) : Folder :=
  match entries with
  | [] => [(name, entry)]
  | (n, e) :: rest =>
    if n = name then (n, entry) :: rest else (n, e) :: setEntry rest name entry

def put (root : Folder) : List String → Entry → Folder
  | [], _ => root
  | [name], entry => root.setEntry name entry
  | name :: names, entry =>
    match root.lookup name with
    | some (.folder entries) => root.setEntry name (.folder (put entries names entry))
    | _ => root.setEntry name (.folder (put [] names entry))

def makeFolderAt (root : Folder) (names : List String) : Folder :=
  match root.search names with
  | .entry (.folder _) => root
  | _ => root.put names (.folder [])

def makeTurns (root : Folder) (names : List String) : Folder :=
  (Route.turns [] names).foldl makeFolderAt root

def remove (root : Folder) : List String → Folder
  | [] => root
  | [name] => root.filter fun e => e.1 ≠ name
  | name :: names =>
    match root.lookup name with
    | some (.folder entries) => root.setEntry name (.folder (remove entries names))
    | _ => root

end Folder

structure Files where
  root : Folder
  home : List String

namespace Files

def way (files : Files) (path : String) : List String :=
  let route := Route.ofPath path
  if route.absolute then route.names else files.home ++ route.names

def find (files : Files) (path : String) : Found :=
  if path.isEmpty then .missing
  else
    match files.root.search (files.way path) with
    | .entry (.file content) =>
      if (Route.ofPath path).folderAsked then .blocked else .entry (.file content)
    | found => found

def isFile (files : Files) (path : String) : Bool :=
  match files.find path with
  | .entry e => e.isFile
  | _ => false

def isFolder (files : Files) (path : String) : Bool :=
  match files.find path with
  | .entry e => e.isFolder
  | _ => false

def read (files : Files) (path : String) : Except FileError Text.Bytes :=
  match files.find path with
  | .entry (.file content) => .ok content
  | .entry (.folder _) => .error (.isFolder path)
  | .missing => .error (.notFound path)
  | .blocked => .error (.notFolder path)

def list (files : Files) (path : String) : Except FileError (List String) :=
  match files.find path with
  | .entry (.folder entries) => .ok (entries.map Prod.fst)
  | .entry (.file _) => .error (.notFolder path)
  | .missing => .error (.notFound path)
  | .blocked => .error (.notFolder path)

def putEntry (files : Files) (path : String) (entry : Entry) : Files :=
  { files with root := files.root.put (Route.direct (files.way path)) entry }

def makeFolder (files : Files) (path : String) : Files :=
  let way := files.way path
  { files with root := (files.root.makeTurns way).makeFolderAt (Route.direct way) }

def putFile (files : Files) (path : String) (content : Text.Bytes) : Files :=
  let way := files.way path
  { files with root := (files.root.makeTurns way).put (Route.direct way) (.file content) }

def remove (files : Files) (path : String) : Files :=
  { files with root := files.root.remove (Route.direct (files.way path)) }

def write (files : Files) (path : String) (content : Text.Bytes) : Except FileError Files :=
  match files.find path with
  | .entry (.folder _) => .error (.isFolder path)
  | .entry (.file _) => .ok (files.putEntry path (.file content))
  | .blocked => .error (.notFolder path)
  | .missing =>
    if (Route.ofPath path).folderAsked then .error (.isFolder path)
    else
      match files.root.search (files.way path).dropLast with
      | .entry (.folder _) => .ok (files.putEntry path (.file content))
      | .blocked => .error (.notFolder path)
      | _ => .error (.notFound path)

end Files

end CompiScript
