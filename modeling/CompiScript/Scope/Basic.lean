import CompiScript.Symbol.Table
import CompiScript.Text.Quoted

/-!
Scopes. The scopes that have been left form finished trees; those that are still open form a chain
from the current one outwards to the global one, each with the finished scopes inside it.
-/

namespace CompiScript

inductive Scope where
  | mk (name : String) (level : Nat) (table : Table) (children : List Scope)
deriving Repr

structure Frame where
  name : String
  level : Nat
  table : Table
  closed : List Scope
deriving Repr

namespace Frame

def opened (name : String) (level : Nat) : Frame :=
  ⟨name, level, [], []⟩

def text (name : String) (level : Int) (names : List String) : String :=
  "Scope: " ++ name ++ ", Level: " ++ toString level ++ ", Symbols: dict_keys(["
    ++ String.intercalate ", " (names.map Text.quoted) ++ "])"

def describe (f : Frame) : String :=
  text f.name f.level f.table.names

def close (f : Frame) (last : Option Scope) : Scope :=
  .mk f.name f.level f.table (f.closed ++ last.toList)

end Frame

def findIn : List Frame → String → Option Category → Option Symbol
  | [], _, _ => none
  | f :: fs, name, category =>
    match f.table.find? name category with
    | some s => some s
    | none => findIn fs name category

def takenIn : List Frame → String → Entity → Bool
  | [], _, _ => false
  | f :: fs, name, e =>
    (match f.table.lookup name with
      | some s => s.entity.isLike e
      | none => false) || takenIn fs name e

/-- Adds a symbol to a frame, where `outer` are the frames around it: the whole chain is searched
for an entity of the same class, then the frame's own table for the name. -/
def Frame.add (f : Frame) (outer : List Frame) (s : Symbol) : Except SymbolError Frame := do
  if takenIn (f :: outer) s.name s.entity then
    let description ← s.entity.describe
    throw (.duplicate s.name description)
  let table ← f.table.add s
  return { f with table := table }

structure Scopes where
  current : Frame
  outer : List Frame
  depth : Nat
deriving Repr

namespace Scopes

def start : Scopes :=
  ⟨Frame.opened "global" 0, [], 0⟩

def chain (s : Scopes) : List Frame :=
  s.current :: s.outer

def enter (s : Scopes) (name : String) : Scopes :=
  ⟨Frame.opened name (s.depth + 1), s.current :: s.outer, s.depth + 1⟩

def exit (s : Scopes) : Scopes :=
  match s.outer with
  | [] => s
  | f :: fs => ⟨{ f with closed := f.closed ++ [s.current.close none] }, fs, s.depth - 1⟩

def add (s : Scopes) (symbol : Symbol) : Except SymbolError Scopes :=
  (s.current.add s.outer symbol).map fun f => { s with current := f }

def find? (s : Scopes) (name : String) (category : Option Category) : Option Symbol :=
  findIn s.chain name category

def globalFrame (s : Scopes) : Frame :=
  s.outer.getLast?.getD s.current

def findGlobal? (s : Scopes) (name : String) (category : Option Category) : Option Symbol :=
  findIn [s.globalFrame] name category

def replaceIn : List Frame → String → Symbol → Option Category → Option (List Frame)
  | [], _, _, _ => none
  | f :: fs, name, symbol, category =>
    match f.table.find? name category with
    | some _ => some ({ f with table := f.table.put name symbol } :: fs)
    | none => (replaceIn fs name symbol category).map (f :: ·)

def withChain (s : Scopes) : List Frame → Scopes
  | [] => s
  | f :: fs => { s with current := f, outer := fs }

def update (s : Scopes) (name : String) (symbol : Symbol) (category : Option Category) :
    Except SymbolError Scopes :=
  match replaceIn s.chain name symbol category with
  | some fs => .ok (s.withChain fs)
  | none => .error (.notFound name)

def detached (s : Scopes) (name : String) (level : Int) (symbol : Symbol) :
    Except SymbolError String :=
  ((Frame.opened name 0).add s.chain symbol).map fun f => Frame.text name level f.table.names

def describe (s : Scopes) : String :=
  "Current Scope: " ++ s.current.name ++ " - Level: " ++ toString s.depth

def closeAll : Option Scope → List Frame → Option Scope
  | inner, [] => inner
  | inner, f :: fs => closeAll (some (f.close inner)) fs

def tree (s : Scopes) : Scope :=
  match closeAll (some (s.current.close none)) s.outer with
  | some t => t
  | none => s.current.close none

end Scopes

end CompiScript
