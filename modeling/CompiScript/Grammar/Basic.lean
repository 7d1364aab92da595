import CompiScript.Grammar.Phrase

namespace CompiScript

open Phrase

namespace Rule

def phrase : Rule → Phrase
  | program => row [repeated [rule declaration], token .eof]
  | declaration =>
    choose [rule classDecl,
      either .namedFunction (rule funDecl) (choose [rule varDecl, rule statement])]
  | classDecl =>
    row [token .classWord, token .identifier, optional [token .extendsWord, token .identifier],
      token .openBrace, repeated [rule function], token .closeBrace]
  | funDecl => row [token .funWord, rule function]
  | varDecl =>
    row [token .varWord, token .identifier, optional [token .equal, rule expression],
      token .semicolon]
  | statement =>
    choose [rule exprStmt, rule forStmt, rule ifStmt, rule printStmt, rule returnStmt,
      rule whileStmt, rule block]
  | exprStmt => row [rule expression, token .semicolon]
  | forStmt =>
    row [token .forWord, token .openParen,
      choose [rule varDecl, rule exprStmt, token .semicolon],
      optional [rule expression], token .semicolon, optional [rule expression], token .closeParen,
      rule statement]
  | ifStmt =>
    row [token .ifWord, token .openParen, rule expression, token .closeParen, rule statement,
      option .nearestIf (row [token .elseWord, rule statement])]
  | printStmt => row [token .printWord, rule expression, token .semicolon]
  | returnStmt => row [token .returnWord, optional [rule expression], token .semicolon]
  | whileStmt =>
    row [token .whileWord, token .openParen, rule expression, token .closeParen, rule statement]
  | block => row [token .openBrace, repeated [rule declaration], token .closeBrace]
  | funAnon =>
    row [token .funWord, token .openParen, optional [rule parameters], token .closeParen,
      rule block]
  | expression => either .wholeFunction (rule assignment) (rule funAnon)
  | assignment =>
    either .assignmentSign
      (row [option .targetObject (row [rule call, token .dot]), token .identifier, token .equal,
        rule assignment])
      (rule logicOr)
  | logicOr => chain (token .orWord) logicAnd
  | logicAnd => chain (token .andWord) equality
  | equality => chain (oneOf [.notEqual, .equalEqual]) comparison
  | comparison => chain (oneOf [.greater, .greaterEqual, .less, .lessEqual]) term
  | term => chain (oneOf [.minus, .plus]) factor
  | factor => chain (oneOf [.slash, .star, .percent]) unary
  | array =>
    row [token .openBracket,
      optional [rule expression, repeated [token .comma, rule expression]], token .closeBracket]
  | instantiation =>
    row [token .newWord, token .identifier, token .openParen, optional [rule arguments],
      token .closeParen]
  | unary => choose [row [oneOf [.bang, .minus], rule unary], rule call]
  | call =>
    choose
      [row [rule primary,
        many .callSuffix
          (choose
            [row [token .openParen, optional [rule arguments], token .closeParen],
              row [token .dot, token .identifier],
              row [token .openBracket, rule expression, token .closeBracket]])],
        rule funAnon]
  | primary =>
    choose [token .trueWord, token .falseWord, token .nilWord, token .thisWord, token .number,
      token .string, token .identifier,
      row [token .openParen, rule expression, token .closeParen],
      row [token .superWord, token .dot, token .identifier], rule array, rule instantiation]
  | function =>
    row [token .identifier, token .openParen, optional [rule parameters], token .closeParen,
      rule block]
  | parameters => row [token .identifier, repeated [token .comma, token .identifier]]
  | arguments => row [rule expression, repeated [token .comma, rule expression]]

def leads : Nat → Rule → Kind → Bool
  | 0, _, _ => false
  | n + 1, r, k => r.phrase.startsWith (leads n) k

/-- No rule begins with a chain of more than sixteen rules. -/
def depth : Nat :=
  16

def starts (r : Rule) (k : Kind) : Bool :=
  leads depth r k

end Rule

namespace Phrase

def starts (p : Phrase) (k : Kind) : Bool :=
  p.startsWith Rule.starts k

def canStart : List Phrase → Kind → Bool
  | [], _ => false
  | p :: ps, k => p.starts k || (p.nullable && canStart ps k)

def canEnd (ps : List Phrase) : Bool :=
  ps.all nullable

def canFollow (ps : List Phrase) (k : Kind) : Bool :=
  canStart ps k || (k == .eof && canEnd ps)

def expected (ps : List Phrase) : List Kind :=
  Kind.all.filter (canFollow ps)

end Phrase

end CompiScript
