import CompiScript.Token.Lexer

namespace CompiScript

inductive SyntaxError where
  | lexical (error : LexicalError)
  | mismatched (token : Token) (expected : List Kind)
  | extraneous (token : Token) (expected : List Kind)
  | missing (expected : List Kind) (token : Token)
  | noAlternative (text : String) (token : Token)
deriving DecidableEq, Repr

namespace SyntaxError

def quoted (text : String) : String :=
  "'" ++ Text.visible text ++ "'"

def kindList : List Kind → String
  | [k] => k.displayName
  | ks => "\x7b" ++ String.intercalate ", " (ks.map Kind.displayName) ++ "\x7d"

def position : SyntaxError → Position
  | lexical e => e.position
  | mismatched t _ => t.position
  | extraneous t _ => t.position
  | missing _ t => t.position
  | noAlternative _ t => t.position

def reason : SyntaxError → String
  | lexical e => e.message
  | mismatched t ks => "mismatched input " ++ quoted t.text ++ " expecting " ++ kindList ks
  | extraneous t ks => "extraneous input " ++ quoted t.text ++ " expecting " ++ kindList ks
  | missing ks t => "missing " ++ kindList ks ++ " at " ++ quoted t.text
  | noAlternative text _ => "no viable alternative at input " ++ quoted text

def message (e : SyntaxError) : String :=
  "Line " ++ toString e.position.line ++ ":" ++ toString e.position.column ++ " - " ++ e.reason

end SyntaxError

end CompiScript
