namespace CompiScript

inductive Kind where
  | eof
  | classWord | extendsWord | openBrace | closeBrace | funWord | varWord | equal | semicolon
  | forWord | openParen | closeParen | ifWord | elseWord | printWord | returnWord | whileWord | dot
  | orWord | andWord | notEqual | equalEqual | greater | greaterEqual | less | lessEqual
  | minus | plus | slash | star | percent | openBracket | comma | closeBracket | newWord | bang
  | trueWord | falseWord | nilWord | thisWord | superWord
  | number | string | identifier
deriving DecidableEq, Repr, Inhabited

namespace Kind

def spelling? : Kind → Option String
  | eof => none
  | classWord => some "class"
  | extendsWord => some "extends"
  | openBrace => some "\x7b"
  | closeBrace => some "\x7d"
  | funWord => some "fun"
  | varWord => some "var"
  | equal => some "="
  | semicolon => some ";"
  | forWord => some "for"
  | openParen => some "("
  | closeParen => some ")"
  | ifWord => some "if"
  | elseWord => some "else"
  | printWord => some "print"
  | returnWord => some "return"
  | whileWord => some "while"
  | dot => some "."
  | orWord => some "or"
  | andWord => some "and"
  | notEqual => some "!="
  | equalEqual => some "=="
  | greater => some ">"
  | greaterEqual => some ">="
  | less => some "<"
  | lessEqual => some "<="
  | minus => some "-"
  | plus => some "+"
  | slash => some "/"
  | star => some "*"
  | percent => some "%"
  | openBracket => some "["
  | comma => some ","
  | closeBracket => some "]"
  | newWord => some "new"
  | bang => some "!"
  | trueWord => some "true"
  | falseWord => some "false"
  | nilWord => some "nil"
  | thisWord => some "this"
  | superWord => some "super"
  | number => none
  | string => none
  | identifier => none

def all : List Kind :=
  [eof, classWord, extendsWord, openBrace, closeBrace, funWord, varWord, equal, semicolon,
    forWord, openParen, closeParen, ifWord, elseWord, printWord, returnWord, whileWord, dot,
    orWord, andWord, notEqual, equalEqual, greater, greaterEqual, less, lessEqual,
    minus, plus, slash, star, percent, openBracket, comma, closeBracket, newWord, bang,
    trueWord, falseWord, nilWord, thisWord, superWord, number, string, identifier]

theorem mem_all (k : Kind) : k ∈ all := by
  cases k <;> decide

def literals : List Kind :=
  all.filter fun k => k.spelling?.isSome

def code (k : Kind) : Int :=
  if k = eof then -1 else all.idxOf k

def displayName : Kind → String
  | eof => "<EOF>"
  | number => "NUMBER"
  | string => "STRING"
  | identifier => "IDENTIFIER"
  | k => "'" ++ k.spelling?.getD "" ++ "'"

def ofSpelling? (text : String) : Option Kind :=
  literals.find? fun k => k.spelling? == some text

end Kind

end CompiScript
