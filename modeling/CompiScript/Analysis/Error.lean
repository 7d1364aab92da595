import CompiScript.Symbol.Entity

namespace CompiScript

inductive Declared where
  | variable | parameter | function
deriving DecidableEq, Repr

def Declared.text : Declared → String
  | .variable => "Variable"
  | .parameter => "Parameter"
  | .function => "Function"

inductive AnalysisError where
  | alreadyDeclared (what : Declared) (name : String)
  | undeclared (name : String)
  | undeclaredTarget (name scope : String)
  | needsBooleans (operator : String) (left right : Option Ty)
  | needsNumbers (operator : String) (left right : Option Ty)
  | notComparable (operator : String) (left right : Option Ty)
  | needsNumbersOrStrings (operator : String) (left right : Option Ty)
  | expectedBoolean (place : String)
  | expectedNumber (place : String)
  | cannotAssign (given : Option Ty) (name : String) (type : Option Ty)
  | cannotReturn (given : Option Ty) (name : String) (type : Option Ty)
  | functionMissing
  | ifConditionMissing
  | ifBodyMissing
  | whileConditionMissing
  | symbol (error : SymbolError)
  | absent (asked : String)
deriving DecidableEq, Repr

namespace AnalysisError

def pair (left right : Option Ty) : String :=
  "'" ++ Ty.show? left ++ "' and '" ++ Ty.show? right ++ "'"

def message : AnalysisError → String
  | alreadyDeclared what name =>
    what.text ++ " '" ++ name ++ "' already exists in the current scope."
  | undeclared name => "Variable '" ++ name ++ "' is not declared in the current scope."
  | undeclaredTarget name scope =>
    "Variable '" ++ name ++ "' is not declared in the current scope - " ++ scope
  | needsBooleans op l r =>
    "Type mismatch: Operator '" ++ op ++ "' requires boolean operands, found " ++ pair l r
  | needsNumbers op l r =>
    "Type mismatch: Operator '" ++ op ++ "' requires numeric operands, found " ++ pair l r
  | notComparable op l r =>
    "Type mismatch: Cannot compare '" ++ Ty.show? l ++ "' with '" ++ Ty.show? r ++ "' using '"
      ++ op ++ "'"
  | needsNumbersOrStrings op l r =>
    "Type mismatch: Operator '" ++ op
      ++ "' requires operands to be either both numbers or both strings, found " ++ pair l r
  | expectedBoolean place => "Type mismatch: Expected boolean expression" ++ place
  | expectedNumber place => "Type mismatch: Expected numeric expression" ++ place
  | cannotAssign given name type =>
    "Type mismatch: Cannot assign '" ++ Ty.show? given ++ "' to variable '" ++ name
      ++ "' of type '" ++ Ty.show? type ++ "'"
  | cannotReturn given name type =>
    "Type mismatch: Cannot return '" ++ Ty.show? given ++ "' from function '" ++ name
      ++ "' with return type '" ++ Ty.show? type ++ "'"
  | functionMissing => "Function declaration must have a function definition."
  | ifConditionMissing => "If statement must have a condition expression."
  | ifBodyMissing => "If statement must have a body."
  | whileConditionMissing => "While loop must have a condition expression."
  | symbol e => e.message
  | absent asked => "'NoneType' object has no attribute '" ++ asked ++ "'"

end AnalysisError

end CompiScript
