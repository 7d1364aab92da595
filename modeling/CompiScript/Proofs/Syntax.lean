import CompiScript.Proofs.Spelling
import CompiScript.Tree.Basic

/-!
Programs by their meaning for the analysis. What it looks at has a form of its own here; what it
passes over (the inside of parentheses, arrays, arguments, anonymous functions, classes) is left as
the trees that stand there. Every form has its tree.
-/

namespace CompiScript.Syntax

structure Name where
  text : String
  plain : Kind.ofSpelling? text = none

namespace Name

def tree (x : Name) : Tree :=
  .leaf ⟨.identifier, x.text⟩

def named (text : String) : Name :=
  if h : Kind.ofSpelling? text = none then ⟨text, h⟩ else ⟨"_", by decide⟩

end Name

def sign (k : Kind) : Tree :=
  .leaf (.literal k)

structure Chain (α : Type) where
  first : α
  rest : List (Kind × α)

namespace Chain

variable {α : Type}

def restTrees (operand : α → Tree) : List (Kind × α) → List Tree
  | [] => []
  | (k, a) :: rest => sign k :: operand a :: restTrees operand rest

def tree (r : Rule) (operand : α → Tree) (c : Chain α) : Tree :=
  .node r (operand c.first :: restTrees operand c.rest)

end Chain

inductive Primary where
  | number (text : String)
  | string (text : String)
  | truth (value : Bool)
  | nil
  | this
  | name (x : Name)
  | inherited (x : Name)
  | group (inner : List Tree)
  | array (elements : List Tree)
  | creation (parts : List Tree)

namespace Primary

def children : Primary → List Tree
  | number text => [.leaf ⟨.number, text⟩]
  | string text => [.leaf ⟨.string, text⟩]
  | truth true => [sign .trueWord]
  | truth false => [sign .falseWord]
  | nil => [sign .nilWord]
  | this => [sign .thisWord]
  | name x => [x.tree]
  | inherited x => [sign .superWord, sign .dot, x.tree]
  | group inner => [sign .openParen, .node .expression inner, sign .closeParen]
  | array elements => [.node .array (sign .openBracket :: elements)]
  | creation parts => [.node .instantiation (sign .newWord :: parts)]

def tree (p : Primary) : Tree :=
  .node .primary p.children

end Primary

inductive Call where
  | primary (callee : Primary) (suffixes : List Tree)
  | function (parts : List Tree)

def Call.tree : Call → Tree
  | primary callee suffixes => .node .call (callee.tree :: suffixes)
  | function parts => .node .call [.node .funAnon parts]

inductive Unary where
  | signed (operator : Kind) (operand : List Tree)
  | call (c : Call)

def Unary.tree : Unary → Tree
  | signed operator operand => .node .unary [sign operator, .node .unary operand]
  | call c => .node .unary [c.tree]

abbrev Factor := Chain Unary
abbrev Term := Chain Factor
abbrev Comparison := Chain Term
abbrev Equality := Chain Comparison
abbrev LogicAnd := Chain Equality
abbrev LogicOr := Chain LogicAnd

def Factor.tree (e : Factor) : Tree :=
  Chain.tree .factor Unary.tree e

def Term.tree (e : Term) : Tree :=
  Chain.tree .term Factor.tree e

def Comparison.tree (e : Comparison) : Tree :=
  Chain.tree .comparison Term.tree e

def Equality.tree (e : Equality) : Tree :=
  Chain.tree .equality Comparison.tree e

def LogicAnd.tree (e : LogicAnd) : Tree :=
  Chain.tree .logicAnd Equality.tree e

def LogicOr.tree (e : LogicOr) : Tree :=
  Chain.tree .logicOr LogicAnd.tree e

def LogicOr.ofUnary (u : Unary) : LogicOr :=
  ⟨⟨⟨⟨⟨⟨u, []⟩, []⟩, []⟩, []⟩, []⟩, []⟩

inductive Assignment where
  | assign (object : Option (List Tree)) (target : Name) (value : Assignment)
  | operation (e : LogicOr)

namespace Assignment

def objectTrees : Option (List Tree) → List Tree
  | none => []
  | some parts => [.node .call parts, sign .dot]

def tree : Assignment → Tree
  | assign object target value =>
    .node .assignment (objectTrees object ++ [target.tree, sign .equal, value.tree])
  | operation e => .node .assignment [e.tree]

end Assignment

inductive Expression where
  | assignment (a : Assignment)
  | function (parts : List Tree)

def Expression.tree : Expression → Tree
  | assignment a => .node .expression [a.tree]
  | function parts => .node .expression [.node .funAnon parts]

def Expression.trees : Option Expression → List Tree
  | none => []
  | some e => [e.tree]

structure VarDecl where
  name : Name
  value : Option Expression

def VarDecl.valueTrees : Option Expression → List Tree
  | none => []
  | some e => [sign .equal, e.tree]

def VarDecl.tree (v : VarDecl) : Tree :=
  .node .varDecl ([sign .varWord, v.name.tree] ++ valueTrees v.value ++ [sign .semicolon])

inductive ForInit where
  | variable (v : VarDecl)
  | expression (e : Expression)
  | nothing

def ForInit.tree : ForInit → Tree
  | .variable v => v.tree
  | expression e => .node .exprStmt [e.tree, sign .semicolon]
  | nothing => sign .semicolon

structure ForHead where
  init : ForInit
  condition : Option Expression
  update : Option Expression

def ForHead.trees (h : ForHead) : List Tree :=
  [sign .forWord, sign .openParen, h.init.tree] ++ Expression.trees h.condition ++
    [sign .semicolon] ++ Expression.trees h.update ++ [sign .closeParen]

structure Params where
  first : Name
  rest : List Name

namespace Params

def names (ps : Params) : List Name :=
  ps.first :: ps.rest

def restTrees : List Name → List Tree
  | [] => []
  | x :: rest => sign .comma :: x.tree :: restTrees rest

def tree (ps : Params) : Tree :=
  .node .parameters (ps.first.tree :: restTrees ps.rest)

def trees : Option Params → List Tree
  | none => []
  | some ps => [ps.tree]

end Params

mutual

inductive Statement where
  | expression (e : Expression)
  | forLoop (head : ForHead) (body : Statement)
  | ifThen (condition : Expression) (yes : Statement)
  | ifElse (condition : Expression) (yes no : Statement)
  | print (e : Expression)
  | giveBack (value : Option Expression)
  | whileLoop (condition : Expression) (body : Statement)
  | block (body : List Declaration)

inductive Declaration where
  | classType (parts : List Tree)
  | function (name : Name) (params : Option Params) (body : List Declaration)
  | variable (v : VarDecl)
  | statement (s : Statement)

end

mutual

def Statement.tree : Statement → Tree
  | .expression e => .node .statement [.node .exprStmt [e.tree, sign .semicolon]]
  | .forLoop head body => .node .statement [.node .forStmt (head.trees ++ [body.tree])]
  | .ifThen condition yes =>
    .node .statement [.node .ifStmt
      [sign .ifWord, sign .openParen, condition.tree, sign .closeParen, yes.tree]]
  | .ifElse condition yes no =>
    .node .statement [.node .ifStmt
      [sign .ifWord, sign .openParen, condition.tree, sign .closeParen, yes.tree,
        sign .elseWord, no.tree]]
  | .print e => .node .statement [.node .printStmt [sign .printWord, e.tree, sign .semicolon]]
  | .giveBack value =>
    .node .statement [.node .returnStmt
      ([sign .returnWord] ++ Expression.trees value ++ [sign .semicolon])]
  | .whileLoop condition body =>
    .node .statement [.node .whileStmt
      [sign .whileWord, sign .openParen, condition.tree, sign .closeParen, body.tree]]
  | .block body =>
    .node .statement [.node .block (sign .openBrace :: Declaration.trees body ++ [sign .closeBrace])]

def Declaration.tree : Declaration → Tree
  | .classType parts => .node .declaration [.node .classDecl parts]
  | .function name params body =>
    .node .declaration [.node .funDecl [sign .funWord, .node .function
      ([name.tree, sign .openParen] ++ Params.trees params ++ [sign .closeParen,
        .node .block (sign .openBrace :: Declaration.trees body ++ [sign .closeBrace])])]]
  | .variable v => .node .declaration [v.tree]
  | .statement s => .node .declaration [s.tree]

def Declaration.trees : List Declaration → List Tree
  | [] => []
  | d :: ds => d.tree :: Declaration.trees ds

end

structure Program where
  body : List Declaration

def Program.tree (p : Program) : Tree :=
  .node .program (Declaration.trees p.body ++ [.leaf .eof])

end CompiScript.Syntax
