import CompiScript.Token.Kind

namespace CompiScript

structure Lexeme where
  kind : Kind
  text : String
deriving DecidableEq, Repr, Inhabited

structure Position where
  line : Nat
  column : Nat
  offset : Nat
deriving DecidableEq, Repr, Inhabited

namespace Position

def start : Position :=
  ⟨1, 0, 0⟩

def next (p : Position) (c : Char) : Position :=
  if c = '\n' then ⟨p.line + 1, 0, p.offset + 1⟩ else ⟨p.line, p.column + 1, p.offset + 1⟩

def advance (p : Position) (cs : List Char) : Position :=
  cs.foldl next p

end Position

structure Token extends Lexeme where
  position : Position
deriving DecidableEq, Repr, Inhabited

namespace Lexeme

def eof : Lexeme :=
  ⟨.eof, "<EOF>"⟩

def ofText (text : String) : Lexeme :=
  if text = "<EOF>" then eof
  else
    match Kind.ofSpelling? text, text.toList with
    | some k, _ => ⟨k, text⟩
    | none, c :: _ =>
      if c.isDigit then ⟨.number, text⟩
      else if c = '\"' then ⟨.string, text⟩
      else ⟨.identifier, text⟩
    | none, [] => ⟨.identifier, text⟩

end Lexeme

namespace Token

def eof (p : Position) : Token :=
  ⟨.eof, p⟩

def width (t : Token) : Nat :=
  if t.kind = .eof then 0 else t.text.length

def stop (t : Token) : Int :=
  t.position.offset + t.width - 1

def contribution (t : Token) : String :=
  if t.kind = .eof then "" else t.text

end Token

end CompiScript
