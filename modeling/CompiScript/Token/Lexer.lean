import CompiScript.Text.Visible
import CompiScript.Token.Basic

/-!
Cutting a text into tokens. Every lexical rule says how long its longest match at the head of a
text is; the longest match of all rules is cut off, the earliest rule winning among equals. Blanks
and comments are cut off like tokens and dropped.
-/

namespace CompiScript

inductive LexicalRule where
  | token (kind : Kind)
  | blank
  | comment
deriving DecidableEq, Repr

namespace LexicalRule

def isIdentifierStart (c : Char) : Bool :=
  c.isAlpha || c = '_'

def isIdentifierPart (c : Char) : Bool :=
  c.isAlphanum || c = '_'

def isBlank (c : Char) : Bool :=
  c = ' ' || c = '\t' || c = '\r' || c = '\n'

def isStringPart (c : Char) : Bool :=
  c ≠ '\"' && c ≠ '\\'

def numberLength (cs : List Char) : Option Nat :=
  match cs.takeWhile Char.isDigit, cs.dropWhile Char.isDigit with
  | [], _ => none
  | whole, '.' :: rest =>
    match rest.takeWhile Char.isDigit with
    | [] => some whole.length
    | fraction => some (whole.length + 1 + fraction.length)
  | whole, _ => some whole.length

def stringLength : List Char → Option Nat
  | '\"' :: rest =>
    match rest.dropWhile isStringPart with
    | '\"' :: _ => some ((rest.takeWhile isStringPart).length + 2)
    | _ => none
  | _ => none

def identifierLength : List Char → Option Nat
  | c :: rest =>
    if isIdentifierStart c then some ((rest.takeWhile isIdentifierPart).length + 1) else none
  | [] => none

def blankLength (cs : List Char) : Option Nat :=
  match cs.takeWhile isBlank with
  | [] => none
  | blanks => some blanks.length

def commentLength : List Char → Option Nat
  | '/' :: '/' :: rest =>
    let line := (rest.takeWhile (· ≠ '\n')).length
    if line < rest.length then some (line + 3) else some (line + 2)
  | _ => none

def literalLength (spelling : String) (cs : List Char) : Option Nat :=
  if spelling.toList.isPrefixOf cs then some spelling.length else none

def length? : LexicalRule → List Char → Option Nat
  | blank, cs => blankLength cs
  | comment, cs => commentLength cs
  | token .number, cs => numberLength cs
  | token .string, cs => stringLength cs
  | token .identifier, cs => identifierLength cs
  | token k, cs => k.spelling?.bind (literalLength · cs)

def all : List LexicalRule :=
  Kind.literals.map token ++ [token .number, token .string, token .identifier, blank, comment]

def longest? : List LexicalRule → List Char → Option (LexicalRule × Nat)
  | [], _ => none
  | r :: rs, cs =>
    match r.length? cs, longest? rs cs with
    | some n, some (s, m) => if n < m then some (s, m) else some (r, n)
    | some n, none => some (r, n)
    | none, best => best

end LexicalRule

structure LexicalError where
  position : Position
  text : String
deriving DecidableEq, Repr

namespace LexicalError

def message (e : LexicalError) : String :=
  "token recognition error at: '" ++ Text.visible e.text ++ "'"

/-- The characters read before it is certain that no rule matches, the last one included: only a
string can be begun in vain. -/
def attempt : List Char → List Char
  | '\"' :: rest =>
    '\"' :: rest.takeWhile LexicalRule.isStringPart
      ++ (rest.dropWhile LexicalRule.isStringPart).take 1
  | cs => cs.take 1

end LexicalError

inductive Ending where
  | finish (position : Position)
  | fault (error : LexicalError)
deriving DecidableEq, Repr

structure Lexed where
  tokens : List Token
  ending : Ending
deriving DecidableEq, Repr

namespace Lexed

def scan (p : Position) : List Char → Lexed
  | [] => ⟨[], .finish p⟩
  | c :: rest =>
    match LexicalRule.longest? LexicalRule.all (c :: rest) with
    | none => ⟨[], .fault ⟨p, String.ofList (LexicalError.attempt (c :: rest))⟩⟩
    | some (rule, n) =>
      let segment := c :: rest.take (n - 1)
      let after := scan (p.advance segment) (rest.drop (n - 1))
      match rule with
      | .token k => ⟨⟨⟨k, String.ofList segment⟩, p⟩ :: after.tokens, after.ending⟩
      | _ => after
termination_by cs => cs.length
decreasing_by simp only [List.length_drop, List.length_cons]; omega

def ofString (text : String) : Lexed :=
  scan Position.start text.toList

end Lexed

end CompiScript
