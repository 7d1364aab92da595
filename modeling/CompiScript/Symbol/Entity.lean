import CompiScript.Symbol.Type

/-!
What names stand for, and symbols. A symbol notes what was known of its entity when it was made;
for functions the notes are brought up to date later, for variables the entity is.
-/

namespace CompiScript

inductive EntityKind where
  | variable | function | classType
deriving DecidableEq, Repr

namespace EntityKind

def text : EntityKind → String
  | .variable => "variable"
  | function => "function"
  | classType => "class"

end EntityKind

inductive Category where
  | objects | variables | functions | classes
deriving DecidableEq, Repr

namespace Category

def text : Category → String
  | objects => "<class 'Model.object_types.Object'>"
  | .variables => "<class 'Model.object_types.Variable'>"
  | functions => "<class 'Model.object_types.Function'>"
  | classes => "<class 'Model.object_types.Class'>"

end Category

inductive SymbolError where
  | duplicate (name description : String)
  | taken
  | notFound (name : String)
  | noParameters
  | unnamedClass
deriving DecidableEq, Repr

namespace SymbolError

def message : SymbolError → String
  | duplicate name description =>
    "Symbol " ++ name ++ " of type " ++ description ++ " already exists in the current scope"
  | taken => "isinstance() arg 2 must be a type, a tuple of types, or a union"
  | notFound name => "Symbol '" ++ name ++ "' not found in any accessible scope for update."
  | noParameters => "'NoneType' object is not iterable"
  | unnamedClass => "'Class' object has no attribute 'name'"

end SymbolError

inductive Entity where
  | variable (type : Option Ty)
  | function (returns : Option Ty) (params : Option (List (Option Ty)))
  | classType (name : Option String) (methods attributes : List String)
  | bare (kind : EntityKind)
  | category (category : Category)
deriving DecidableEq, Repr

namespace Entity

def belongs : Entity → Category → Bool
  | category _, _ => false
  | _, .objects => true
  | .variable _, .variables => true
  | function _ _, .functions => true
  | classType _ _ _, .classes => true
  | _, _ => false

def isLike (e model : Entity) : Bool :=
  match model with
  | .variable _ => e.belongs .variables
  | function _ _ => e.belongs .functions
  | classType _ _ _ => e.belongs .classes
  | bare _ => e.belongs .objects
  | category _ =>
    match e with
    | category _ => true
    | _ => false

def kindText : Entity → String
  | .variable _ => EntityKind.variable.text
  | function _ _ => EntityKind.function.text
  | classType _ _ _ => EntityKind.classType.text
  | bare k => k.text
  | category _ => "type"

def variableText (type : Option Ty) : String :=
  "variable (" ++ Ty.show? type ++ ")"

def describe : Entity → Except SymbolError String
  | .variable t => .ok (variableText t)
  | function _ none => .error .noParameters
  | function r (some ps) =>
    .ok ("function returns " ++ Ty.show? r ++ ", params: ("
      ++ String.intercalate ", " (ps.map variableText) ++ ")")
  | classType none _ _ => .error .unnamedClass
  | classType (some n) _ _ => .ok ("class " ++ n)
  | bare k => .ok k.text
  | category c => .ok c.text

end Entity

/-- The parameters that are noted of a function: variables by their types, or the variables that the
function's own scope has under the given keys. -/
inductive ParamList where
  | given (types : List (Option Ty))
  | keyed (keys : List String)
deriving DecidableEq, Repr

inductive EntityNotes where
  | variable (type : Option Ty)
  | function (returns : Option Ty) (params : Option ParamList)
  | classType (methods attributes : List String)
  | nothing
deriving DecidableEq, Repr

def Entity.notes : Entity → EntityNotes
  | .variable t => .variable t
  | function r ps => .function r (ps.map .given)
  | classType _ ms as => .classType ms as
  | bare _ => .nothing
  | category _ => .nothing

structure Symbol where
  name : String
  entity : Entity
  noted : EntityNotes
deriving DecidableEq, Repr

namespace Symbol

def ofEntity (name : String) (entity : Entity) : Symbol :=
  ⟨name, entity, entity.notes⟩

def describe (s : Symbol) : Except SymbolError String :=
  s.entity.describe.map fun d => s.name ++ ": " ++ d

def type? (s : Symbol) : Option Ty :=
  match s.entity with
  | .variable t => t
  | _ => none

def setType (s : Symbol) (t : Option Ty) : Symbol :=
  { s with entity := .variable t }

def returns? (s : Symbol) : Option Ty :=
  match s.noted with
  | .function r _ => r
  | _ => none

def params? (s : Symbol) : Option ParamList :=
  match s.noted with
  | .function _ ps => ps
  | _ => none

def setReturns (s : Symbol) (r : Option Ty) : Symbol :=
  { s with noted := .function r s.params? }

def setParams (s : Symbol) (keys : List String) : Symbol :=
  { s with noted := .function s.returns? (some (.keyed keys)) }

end Symbol

end CompiScript
