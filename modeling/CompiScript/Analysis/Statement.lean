import CompiScript.Analysis.Child

namespace CompiScript

namespace Analysis

open Analysis

def visitProgram (cs : List Child) : Analysis Value := do
  remark "Entered global scope"
  visitAll .nothing cs

def visitDeclaration (manner : Manner) (cs : List Child) : Analysis Value := do
  remark "Visiting declaration"
  match rule? .funDecl cs, rule? .varDecl cs, rule? .statement cs with
  | some c, _, _ =>
    remark "Visiting function declaration in declaration"
    discard (c.visit .alone)
    return .nothing
  | none, some c, _ =>
    remark "Visiting variable declaration in declaration"
    discard (c.visit .alone)
    return .nothing
  | none, none, some c =>
    remark "Visiting statement in declaration"
    c.visit (.inside none manner.function)
  | none, none, none => return .nothing

def statementForms : List (Rule × String) :=
  [(.exprStmt, "expression"), (.ifStmt, "if"), (.forStmt, "for"), (.whileStmt, "while"),
    (.returnStmt, "return"), (.printStmt, "print"), (.block, "block")]

def visitForms (manner : Manner) (cs : List Child) : List (Rule × String) → Analysis Value
  | [] => return .nothing
  | (r, word) :: forms =>
    match rule? r cs with
    | none => visitForms manner cs forms
    | some c => do
      remark ("Visiting " ++ word ++ " statement in statement")
      match r with
      | .returnStmt => c.visit (.inside none manner.function)
      | .block => c.visit (.inside manner.scope none)
      | _ => c.visit .alone

def visitStatement (manner : Manner) (cs : List Child) : Analysis Value := do
  remark "Visiting statement"
  visitForms manner cs statementForms

def visitForInit (cs : List Child) : Analysis Unit := do
  match rule? .varDecl cs, rule? .exprStmt cs with
  | some c, _ =>
    remark "Visiting variable declaration in for loop"
    discard (c.visit .alone)
  | none, some c =>
    remark "Visiting expression statement in for loop initialization"
    discard (c.visit .alone)
  | none, none => remark "No initialization in for loop"

/-- The first expression of the head is the condition, the second one the update. -/
def visitForHead (expressions : List Child) : Analysis Unit := do
  match expressions[0]? with
  | some c =>
    remark "Visiting condition expression in for loop"
    let t ← typeOf c
    check (Operand.checkBoolean t " in for loop condition")
  | none => remark "No condition in for loop (infinite loop unless broken)"
  match expressions[1]? with
  | some c =>
    remark "Visiting update expression in for loop"
    discard (c.visit .alone)
  | none => remark "No update expression in for loop"

def visitForStmt (cs : List Child) : Analysis Value := do
  remark "Visiting for statement"
  remark "Entered for loop scope"
  enter "For Loop"
  visitForInit cs
  visitForHead (ofRule .expression cs)
  match rule? .statement cs with
  | some c =>
    remark "Entering body scope of for loop"
    enter "For Loop Body"
    discard (c.visit .alone)
    exit
  | none => pure ()
  remark "Exited for loop scope"
  exit
  return .nothing

def visitWhileStmt (cs : List Child) : Analysis Value := do
  remark "Visiting while statement"
  match rule? .expression cs with
  | some c =>
    remark "Visiting condition expression in while loop"
    let t ← typeOf c
    check (Operand.checkBoolean t " in while loop condition")
  | none => throw .whileConditionMissing
  match rule? .statement cs with
  | some c =>
    remark "Visiting body of while loop"
    discard (c.visit (.inside (some "While Loop") none))
  | none => pure ()
  return .nothing

/-- A function returns nil until a `return` gives it a type, which then binds the others. -/
def inferReturn (update : Reference → Analysis Unit) (function : Option Reference)
    (given : Option Ty) : Analysis Unit := do
  match function with
  | none => throw (.absent "return_type")
  | some f =>
    let type := (← symbolOf f).bind Symbol.returns?
    if type = some Ty.nil then
      modifyScopes fun s => s.changeAt f fun symbol => symbol.setReturns given
      update f
      remark ("Inferred return type for function '" ++ f.name ++ "' is '" ++ Ty.show? given ++ "'")
    else if Ty.show? type ≠ Ty.show? given then
      throw (.cannotReturn given f.name type)

def visitReturnStmt (update : Reference → Analysis Unit) (manner : Manner) (cs : List Child) :
    Analysis Value := do
  remark "Visiting return statement"
  match rule? .expression cs with
  | some c =>
    remark "Visiting expression in return statement"
    let t ← typeOf c
    if (← get).inReturn then
      remark "Postponing return type validation due to parameter dependency"
    else
      inferReturn update manner.function t
  | none =>
    remark "No return expression in return statement"
    match manner.function with
    | none => throw (.absent "name")
    | some f => update f
  return .nothing

def visitPrintStmt (cs : List Child) : Analysis Value := do
  remark "Visiting print statement"
  modify fun s => { s with inPrint := true }
  match rule? .expression cs with
  | some c => discard (c.visit .alone)
  | none => throw (.absent "accept")
  modify fun s => { s with inPrint := false }
  return .nothing

def visitDeclarations (function : Option Reference) : Nat → List Child → Analysis Unit
  | _, [] => return
  | i, c :: cs => do
    remark ("Visiting declaration " ++ toString i ++ " in block statement")
    discard (c.visit (.inside none function))
    visitDeclarations function (i + 1) cs

def visitBlock (manner : Manner) (cs : List Child) : Analysis Value := do
  match manner with
  | .alone => visitAll .nothing cs
  | .inside scope function =>
    remark "Visiting block statement"
    match scope with
    | some name =>
      remark ("Entered block scope '" ++ name ++ "'")
      enter name
    | none =>
      remark "Entered block scope"
      enter "Block Scope"
    remark "Visiting block statements"
    visitDeclarations function 0 (ofRule .declaration cs)
    remark "Exited block scope"
    exit
    return .nothing

def visitFunDecl (cs : List Child) : Analysis Value := do
  remark "Visiting function declaration"
  match rule? .function cs with
  | some c =>
    remark "Visiting function in function declaration"
    discard (c.visit .alone)
  | none => throw .functionMissing
  return .nothing

def refuseDeclared (what : Declared) (category : Category) (name : String) : Analysis Unit := do
  if (← find? name category).isSome then
    throw (.alreadyDeclared what name)

def visitVarDecl (cs : List Child) : Analysis Value := do
  remark "Visiting variable declaration"
  let name ← required (textOf? .identifier cs)
  remark ("Started variable declaration for var: " ++ name)
  remark ("Checking if variable '" ++ name ++ "' already exists in the current scope")
  refuseDeclared .variable .variables name
  remark ("Creating new variable symbol for '" ++ name ++ "'")
  remark ("Adding variable '" ++ name ++ "' to current scope " ++ (← currentText))
  let _ ← declare name (.variable none)
  remark ("Added variable " ++ name ++ " to current scope " ++ (← currentText))
  match rule? .expression cs with
  | some c =>
    remark ("Visiting expression to infer type for variable '" ++ name ++ "'")
    let t ← typeOf c
    modifyScopes fun s => s.setType name t
    remark ("Inferred type for variable " ++ name ++ ": " ++ Ty.show? t)
  | none => remark ("No initial value for '" ++ name ++ "', type is undefined.")
  let type := (← find? name .variables).bind Symbol.type?
  remark ("Variable '" ++ name ++ "' declared with type '" ++ Ty.show? type ++ "' in "
    ++ (← currentText))
  return .nothing

def visitExprStmt (cs : List Child) : Analysis Value := do
  remark "Visiting expression statement"
  match rule? .expression cs with
  | some c =>
    remark "Visiting expression in expression statement"
    c.visit .alone
  | none => return .nothing

def visitIfStmt (cs : List Child) : Analysis Value := do
  remark "Visiting if statement"
  match rule? .expression cs with
  | some c =>
    remark "Visiting expression in if statement"
    let t ← typeOf c
    check (Operand.checkBoolean t " in if statement")
  | none => throw .ifConditionMissing
  let bodies := ofRule .statement cs
  match bodies[0]? with
  | some c =>
    remark "Visiting statement in if statement"
    discard (c.visit (.inside (some "If Block") none))
  | none => throw .ifBodyMissing
  match bodies[1]? with
  | some c =>
    remark "Visiting statement in else statement"
    discard (c.visit (.inside (some "Else Block") none))
  | none => remark "No else statement in if statement"
  return .nothing

def paramsShown (symbol : Option Symbol) : Analysis String := do
  let own := (← getScopes).current.table
  return paramsText? ((symbol.bind Symbol.params?).map fun params => params.types own)

def visitFunction (update : Reference → Analysis Unit) (cs : List Child) : Analysis Value := do
  remark "Visiting function"
  let name ← required (textOf? .identifier cs)
  remark ("Started function declaration for function '" ++ name ++ "'")
  remark ("Checking if function '" ++ name ++ "' already exists in the current scope")
  refuseDeclared .function .functions name
  remark ("Creating new function symbol for '" ++ name ++ "'")
  remark ("Adding function '" ++ name ++ "' to current scope " ++ (← currentText))
  let function ← declare name (.function (some Ty.nil) none)
  remark ("Entered function scope '" ++ name ++ "'")
  enter ("Function '" ++ name ++ "'")
  match rule? .parameters cs with
  | some c =>
    remark "Visiting parameters in function"
    let params ← c.visit .alone
    modifyScopes fun s => s.changeAt function fun symbol => symbol.setParams params.keys
    modify fun s => { s with inReturn := true }
    update function
    remark ("Updated function '" ++ name ++ "' with parameters '"
      ++ (← paramsShown (← symbolOf function)) ++ "'")
  | none => remark "No parameters in function"
  match rule? .block cs with
  | some c =>
    remark "Visiting block in function"
    discard (c.visit (.inside (some ("Function " ++ name ++ " Body")) (some function)))
  | none => pure ()
  let symbol ← symbolOf function
  remark ("Function '" ++ name ++ "' declared with return type '"
    ++ Ty.show? (symbol.bind Symbol.returns?) ++ "' and parameters '"
    ++ (← paramsShown symbol) ++ "' in " ++ (← currentText))
  remark ("Exited function scope '" ++ name ++ "'")
  exit
  modify fun s => { s with inReturn := false }
  return .nothing

def declareParam (name : String) : Analysis String := do
  remark ("Started parameter declaration for parameter '" ++ name ++ "'")
  remark ("Checking if parameter '" ++ name ++ "' already exists in the current scope")
  refuseDeclared .parameter .variables name
  remark ("Creating new parameter symbol for '" ++ name ++ "'")
  remark ("Adding parameter '" ++ name ++ "' to current scope " ++ (← currentText))
  let param ← declare name (.variable none)
  remark ("Added parameter " ++ name ++ " to current scope " ++ (← currentText))
  return param.name

def visitParameters (cs : List Child) : Analysis Value := do
  remark "Visiting parameters"
  return .params (← (textsOf .identifier cs).mapM declareParam)

end Analysis

end CompiScript
