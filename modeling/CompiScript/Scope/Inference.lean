import CompiScript.Scope.Basic

namespace CompiScript

def changeIn (name : String) (category : Category) (change : Symbol → Symbol) :
    List Frame → List Frame
  | [] => []
  | f :: fs =>
    match f.table.find? name (some category) with
    | some s => { f with table := f.table.put name (change s) } :: fs
    | none => f :: changeIn name category change fs

mutual

def Scope.size : Scope → Nat
  | .mk _ _ _ children => Scope.sizes children + 1

def Scope.sizes : List Scope → Nat
  | [] => 0
  | s :: ss => s.size + Scope.sizes ss

end

def scopesIn : List Frame → Nat
  | [] => 0
  | f :: fs => scopesIn fs + (Scope.sizes f.closed + 1)

/-- A name in the scope with the number; scopes are numbered as they are entered. -/
structure Reference where
  scope : Nat
  name : String
deriving DecidableEq, Repr

def symbolAt (r : Reference) : List Frame → Option Symbol
  | [] => none
  | f :: fs => if scopesIn fs = r.scope then f.table.lookup r.name else symbolAt r fs

def changeAt (r : Reference) (change : Symbol → Symbol) : List Frame → List Frame
  | [] => []
  | f :: fs =>
    if scopesIn fs = r.scope then { f with table := f.table.change r.name change } :: fs
    else f :: changeAt r change fs

namespace Scopes

def setType (s : Scopes) (name : String) (type : Option Ty) : Scopes :=
  s.withChain (changeIn name .variables (fun x => x.setType type) s.chain)

def reference (s : Scopes) (name : String) : Reference :=
  ⟨scopesIn s.outer, name⟩

def at? (s : Scopes) (r : Reference) : Option Symbol :=
  symbolAt r s.chain

def changeAt (s : Scopes) (r : Reference) (change : Symbol → Symbol) : Scopes :=
  s.withChain (CompiScript.changeAt r change s.chain)

end Scopes

end CompiScript
