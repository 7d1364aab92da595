import CompiScript.Files.Basic

namespace CompiScript

inductive Node where
  | mk (text : String) (children : List Node)

namespace Node

def text : Node → String
  | mk t _ => t

def children : Node → List Node
  | mk _ cs => cs

def setChildren (cs : List Node) : Node → Node
  | mk t _ => mk t cs

mutual

def outline (depth : Nat) : Node → List (Nat × String)
  | mk t cs => (depth, t) :: outlineAll (depth + 1) cs

def outlineAll (depth : Nat) : List Node → List (Nat × String)
  | [] => []
  | n :: ns => n.outline depth ++ outlineAll depth ns

end

end Node

abbrev Explorer := List Node

namespace Explorer

def route : List Nat → Explorer → Option (List String)
  | [], _ => some []
  | i :: is, ns =>
    match ns[i]? with
    | none => none
    | some n => (route is n.children).map (n.text :: ·)

def setChildren (cs : List Node) : List Nat → Explorer → Explorer
  | [], ns => ns
  | [i], ns => ns.modify i (Node.setChildren cs)
  | i :: is, ns => ns.modify i fun n => n.setChildren (setChildren cs is n.children)

def entryNodes (files : Files) (path : String) (names : List String) : List Node :=
  names.map fun name =>
    .mk name (if files.isFolder (Text.Path.join path name) then [.mk "" []] else [])

def load (files : Files) (path : String) (place : List Nat) (explorer : Explorer) :
    Except FileError Unit × Explorer :=
  match files.list path with
  | .error e => (.error e, setChildren [] place explorer)
  | .ok names => (.ok (), setChildren (entryNodes files path names) place explorer)

end Explorer

end CompiScript
