import CompiScript.Analysis.Error

namespace CompiScript.Operand

def checkLogical (left right : Option Ty) (operator : String) : Except AnalysisError Unit :=
  if left = some Ty.boolean ∧ right = some Ty.boolean then .ok ()
  else .error (.needsBooleans operator left right)

/-- In a `print`, `+` accepts everything; in a function with parameters every operator does. -/
def checkArithmetic (left right : Option Ty) (operator : String) (inPrint inReturn : Bool) :
    Except AnalysisError (List String) :=
  if operator = "+" && inPrint then
    .ok ["Operator '+' is being used as a concatenation operator."]
  else if inReturn then
    .ok ["Operation type inference for operator '" ++ operator ++ "' postponed until runtime."]
  else if left = some Ty.string ∧ right = some Ty.string then
    .ok ["Operator '" ++ operator ++ "' is being used as a concatenation operator."]
  else if left = some Ty.num ∧ right = some Ty.num then .ok []
  else .error (.needsNumbers operator left right)

def passesFor (left : Option Ty) : Option Ty → Bool
  | none => left = none
  | some (.proper d) => left = some (.proper d)
  | some (.loose _) => left.isSome

def checkEquality (left right : Option Ty) (operator : String) : Except AnalysisError Unit :=
  if !passesFor left right then .error (.notComparable operator left right)
  else if left = some Ty.num ∨ left = some Ty.string then .ok ()
  else .error (.needsNumbersOrStrings operator left right)

def checkBoolean (type : Option Ty) (place : String) : Except AnalysisError Unit :=
  if type = some Ty.boolean then .ok () else .error (.expectedBoolean place)

def checkNumber (type : Option Ty) (place : String) : Except AnalysisError Unit :=
  if type = some Ty.num then .ok () else .error (.expectedNumber place)

end CompiScript.Operand
