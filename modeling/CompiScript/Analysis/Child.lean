import CompiScript.Analysis.Operand
import CompiScript.Analysis.State
import CompiScript.Tree.Parts

/-!
The analysis of a tree. What a node means is said by its rule and by what its children mean: a
child is met as a tree together with its analysis, which the rule may run, run in a certain manner
or leave alone. Only what is run leaves traces.
-/

namespace CompiScript

inductive Value where
  | type (type : Option Ty)
  | params (keys : List String)
deriving DecidableEq, Repr

namespace Value

def nothing : Value :=
  type none

def type? : Value → Option Ty
  | type t => t
  | params _ => none

def keys : Value → List String
  | type _ => []
  | params keys => keys

end Value

def paramsText (types : List (Option Ty)) : String :=
  "[" ++ String.intercalate ", " (types.map Entity.variableText) ++ "]"

def paramsText? : Option (List (Option Ty)) → String
  | none => "None"
  | some types => paramsText types

def Value.text? (own : Table) : Value → Option String
  | type t => t.map Ty.text
  | params keys => some (paramsText ((ParamList.keyed keys).types own))

/-- How a node is met: by itself, or from the rule around it, which may name the scope of a block
and the function that a `return` belongs to. -/
inductive Manner where
  | alone
  | inside (scope : Option String) (function : Option Reference)

namespace Manner

def scope : Manner → Option String
  | alone => none
  | inside s _ => s

def function : Manner → Option Reference
  | alone => none
  | inside _ f => f

end Manner

abbrev Visit := Manner → Analysis Value

structure Child where
  tree : Tree
  visit : Visit

namespace Analysis

open Analysis

def ofRule (r : Rule) (cs : List Child) : List Child :=
  cs.filter fun c => c.tree.isRule r

def rule? (r : Rule) (cs : List Child) : Option Child :=
  cs.find? fun c => c.tree.isRule r

def textsOf (k : Kind) (cs : List Child) : List String :=
  (cs.filter fun c => c.tree.isKind k).map fun c => c.tree.text

def textOf? (k : Kind) (cs : List Child) : Option String :=
  (textsOf k cs).head?

def required (text : Option String) : Analysis String :=
  match text with
  | some t => return t
  | none => throw (.absent "getText")

def typeOf (c : Child) : Analysis (Option Ty) :=
  return (← c.visit .alone).type?

def visitAll (last : Value) : List Child → Analysis Value
  | [] => return last
  | c :: cs => do visitAll (← c.visit .alone) cs

end Analysis

end CompiScript
