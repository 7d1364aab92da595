import CompiScript.Symbol.Entity

namespace CompiScript

abbrev Table := List (String × Symbol)

namespace Table

def names (t : Table) : List String :=
  t.map Prod.fst

def find? (t : Table) (name : String) (category : Option Category) : Option Symbol :=
  match t.lookup name with
  | none => none
  | some s =>
    match category with
    | none => some s
    | some c => if s.entity.belongs c then some s else none

def put : Table → String → Symbol → Table
  | [], name, s => [(name, s)]
  | (n, old) :: t, name, s => if n = name then (n, s) :: t else (n, old) :: put t name s

def add (t : Table) (s : Symbol) : Except SymbolError Table :=
  match t.lookup s.name with
  | none => .ok (t.put s.name s)
  | some old =>
    match s.entity with
    | .category c =>
      if old.entity.belongs c then .error (.duplicate s.name c.text) else .ok (t.put s.name s)
    | _ => .error .taken

def change (t : Table) (name : String) (change : Symbol → Symbol) : Table :=
  match t.lookup name with
  | none => t
  | some s => t.put name (change s)

end Table

def ParamList.types (own : Table) : ParamList → List (Option Ty)
  | given types => types
  | keyed keys => keys.map fun key => (own.find? key (some .variables)).bind Symbol.type?

end CompiScript
