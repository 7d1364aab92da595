import CompiScript.Analysis.Expression

namespace CompiScript

namespace Analysis

open Analysis

def visitRule (r : Rule) (manner : Manner) (cs : List Child) : Analysis Value :=
  match r with
  | .program => visitProgram cs
  | .declaration => visitDeclaration manner cs
  | .funDecl => visitFunDecl cs
  | .varDecl => visitVarDecl cs
  | .statement => visitStatement manner cs
  | .exprStmt => visitExprStmt cs
  | .forStmt => visitForStmt cs
  | .ifStmt => visitIfStmt cs
  | .printStmt => visitPrintStmt cs
  | .returnStmt => visitReturnStmt updateSymbol manner cs
  | .whileStmt => visitWhileStmt cs
  | .block => visitBlock manner cs
  | .expression => visitExpression cs
  | .assignment => visitAssignment cs
  | .logicOr => visitLogical ⟨.logicOr, .logicAnd, .equality⟩ "or" cs
  | .logicAnd => visitLogical ⟨.logicAnd, .equality, .comparison⟩ "and" cs
  | .equality => visitEquality cs
  | .comparison => visitComparison cs
  | .term => visitArithmetic ⟨.term, .factor, .unary⟩ cs
  | .factor => visitArithmetic ⟨.factor, .unary, .call⟩ cs
  | .unary => visitUnary cs
  | .call => visitCall cs
  | .primary => visitPrimary cs
  | .function => visitFunction updateSymbol cs
  | .parameters => visitParameters cs
  | .classDecl | .funAnon | .array | .instantiation | .arguments => visitAll .nothing cs

end Analysis

mutual

def Tree.visit : Tree → Visit
  | .leaf _ => fun _ => return .nothing
  | .node r cs => fun manner => Analysis.visitRule r manner (Tree.visitEach cs)

def Tree.visitEach : List Tree → List Child
  | [] => []
  | t :: ts => ⟨t, t.visit⟩ :: Tree.visitEach ts

end

def AnalysisState.analyse (s : AnalysisState) (t : Tree) :
    Except AnalysisError Value × AnalysisState :=
  Analysis.runFrom (t.visit .alone) s

end CompiScript
