import CompiScript.Analysis.Statement

namespace CompiScript

namespace Analysis

open Analysis

def visitExpression (cs : List Child) : Analysis Value := do
  remark "Visiting expression"
  match rule? .assignment cs with
  | some c =>
    remark "Visiting assignment in expression"
    c.visit .alone
  | none => return .nothing

/-- A variable takes the type of the first value assigned to it, and keeps it. -/
def assignTo (name : String) (given : Option Ty) : Analysis Unit := do
  let type := (← find? name .variables).bind Symbol.type?
  match type with
  | none =>
    modifyScopes fun s => s.setType name given
    remark ("Set type of variable '" ++ name ++ "' to '" ++ Ty.show? given ++ "'")
  | some t =>
    if t.text ≠ Ty.show? given then
      throw (.cannotAssign given name type)
  let settled := (← find? name .variables).bind Symbol.type?
  remark ("Assigned value to variable '" ++ name ++ "' of type '" ++ Ty.show? settled ++ "'")

def visitAssignment (cs : List Child) : Analysis Value := do
  remark "Visiting assignment"
  match textOf? .identifier cs, rule? .logicOr cs with
  | some name, _ =>
    remark ("Started assignment for variable '" ++ name ++ "'")
    if (← find? name .variables).isNone then
      throw (.undeclaredTarget name (← currentText))
    remark ("Found variable '" ++ name ++ "' in " ++ (← currentText))
    match rule? .assignment cs with
    | none => throw (.absent "accept")
    | some c =>
      let t ← typeOf c
      assignTo name t
    return .nothing
  | none, some c =>
    remark "Visiting logic_or in assignment"
    c.visit .alone
  | none, none => return .nothing

structure Level where
  rule : Rule
  operand : Rule
  below : Rule

def firstOperand (level : Level) (operands : List Child) : Analysis (Option Ty) :=
  match operands with
  | c :: _ => typeOf c
  | [] => do
    remark ("Visiting " ++ level.operand.name)
    throw (.absent level.below.name)

def operatorText (i : Nat) (cs : List Child) : Analysis String :=
  required (cs[2 * i - 1]?.map fun c => c.tree.text)

def visitOperands (level : Level) (seen : Nat → Option Ty → Analysis Unit) :
    Nat → List Child → Analysis Unit
  | _, [] => return
  | i, c :: rest => do
    remark ("Visiting " ++ level.operand.name ++ " " ++ toString i ++ " in " ++ level.rule.name)
    let right ← typeOf c
    seen i right
    visitOperands level seen (i + 1) rest

def visitLevel (level : Level) (cs : List Child) (first : Option Ty → Analysis Unit)
    (check : Option Ty → Nat → Option Ty → Analysis Unit) (result : Ty) : Analysis Value := do
  remark ("Visiting " ++ level.rule.name)
  let operands := ofRule level.operand cs
  match operands with
  | [c] =>
    remark ("Single " ++ level.operand.name ++ " in " ++ level.rule.name)
    c.visit .alone
  | _ =>
    let left ← firstOperand level operands
    first left
    visitOperands level (check left) 1 operands.tail
    return .type (some result)

def visitLogical (level : Level) (operator : String) (cs : List Child) : Analysis Value :=
  visitLevel level cs (fun _ => return)
    (fun left _ right => check (Operand.checkLogical left right operator)) Ty.boolean

def visitEquality (cs : List Child) : Analysis Value :=
  visitLevel ⟨.equality, .comparison, .term⟩ cs (fun _ => return)
    (fun left i right => do
      check (Operand.checkEquality left right (← operatorText i cs))) Ty.boolean

def checkArithmetic (cs : List Child) (left : Option Ty) (i : Nat) (right : Option Ty) :
    Analysis Unit := do
  let operator ← operatorText i cs
  let s ← get
  checkRemarking (Operand.checkArithmetic left right operator s.inPrint s.inReturn)

def visitComparison (cs : List Child) : Analysis Value :=
  visitLevel ⟨.comparison, .term, .factor⟩ cs
    (fun left => remark ("Visited left term in comparison: " ++ Ty.show? left))
    (fun left i right => do
      remark ("Visited right term in comparison: " ++ Ty.show? right)
      checkArithmetic cs left i right) Ty.boolean

def visitArithmetic (level : Level) (cs : List Child) : Analysis Value :=
  visitLevel level cs (fun _ => return) (checkArithmetic cs) Ty.num

def visitUnary (cs : List Child) : Analysis Value := do
  remark "Visiting unary"
  match rule? .call cs with
  | some c =>
    remark "Visiting call in unary"
    c.visit .alone
  | none => return .nothing

def visitCall (cs : List Child) : Analysis Value := do
  remark "Visiting call"
  match rule? .primary cs with
  | some c =>
    remark "Visiting primary in call"
    c.visit .alone
  | none => return .nothing

def visitPrimary (cs : List Child) : Analysis Value := do
  remark "Visiting primary"
  let text := String.join (cs.map fun c => c.tree.text)
  if (textOf? .number cs).isSome then
    return .type (some Ty.num)
  else if (textOf? .string cs).isSome then
    return .type (some Ty.string)
  else if text = "true" ∨ text = "false" then
    return .type (some Ty.boolean)
  else if text = "nil" then
    return .type (some Ty.nil)
  else
    match textOf? .identifier cs with
    | none => return .nothing
    | some name =>
      remark ("Getting type for identifier '" ++ name ++ "'")
      match ← find? name .variables with
      | none => throw (.undeclared name)
      | some symbol => return .type symbol.type?

end Analysis

end CompiScript
