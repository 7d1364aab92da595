namespace CompiScript

inductive Rule where
  | program | declaration | classDecl | funDecl | varDecl | statement | exprStmt | forStmt | ifStmt
  | printStmt | returnStmt | whileStmt | block | funAnon | expression | assignment | logicOr
  | logicAnd | equality | comparison | term | factor | array | instantiation | unary | call
  | primary | function | parameters | arguments
deriving DecidableEq, Repr, Inhabited

namespace Rule

def name : Rule → String
  | program => "program"
  | declaration => "declaration"
  | classDecl => "classDecl"
  | funDecl => "funDecl"
  | varDecl => "varDecl"
  | statement => "statement"
  | exprStmt => "exprStmt"
  | forStmt => "forStmt"
  | ifStmt => "ifStmt"
  | printStmt => "printStmt"
  | returnStmt => "returnStmt"
  | whileStmt => "whileStmt"
  | block => "block"
  | funAnon => "funAnon"
  | expression => "expression"
  | assignment => "assignment"
  | logicOr => "logic_or"
  | logicAnd => "logic_and"
  | equality => "equality"
  | comparison => "comparison"
  | term => "term"
  | factor => "factor"
  | array => "array"
  | instantiation => "instantiation"
  | unary => "unary"
  | call => "call"
  | primary => "primary"
  | function => "function"
  | parameters => "parameters"
  | arguments => "arguments"

def all : List Rule :=
  [program, declaration, classDecl, funDecl, varDecl, statement, exprStmt, forStmt, ifStmt,
    printStmt, returnStmt, whileStmt, block, funAnon, expression, assignment, logicOr, logicAnd,
    equality, comparison, term, factor, array, instantiation, unary, call, primary, function,
    parameters, arguments]

theorem mem_all (r : Rule) : r ∈ all := by
  cases r <;> decide

def ofName? (text : String) : Option Rule :=
  all.find? fun r => r.name == text

def label (r : Rule) : String :=
  match r.name.toList with
  | [] => ""
  | c :: cs => String.ofList (c.toUpper :: cs)

end Rule

end CompiScript
