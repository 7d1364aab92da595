import CompiScript.Grammar.Basic
import CompiScript.Parser.Error

/-!
The tokens in front of a reader. They are read one by one, so that a fault of the lexer is met only
where a reader looks at it; behind the end of the text there is nothing but its end.
-/

namespace CompiScript

namespace Ending

def token : Ending → Except SyntaxError Token
  | finish p => .ok (Token.eof p)
  | fault e => .error (.lexical e)

end Ending

def look (ending : Ending) (tokens : List Token) (distance : Nat) : Except SyntaxError Token :=
  match tokens[distance]? with
  | some t => .ok t
  | none => ending.token

theorem look_nil_kind {ending : Ending} {n : Nat} {t : Token} (h : look ending [] n = .ok t) :
    t.kind = .eof := by
  cases ending with
  | finish p =>
    simp only [look, List.getElem?_nil, Ending.token, Except.ok.injEq] at h
    rw [← h]
    rfl
  | fault e => simp [look, Ending.token] at h

/-- The error at a token that ends all alternatives. The whole text is read before it is
reported, so a fault of the lexer further on is reported in its place. -/
def noAlternative (ending : Ending) (text : String) (t : Token) : SyntaxError :=
  match ending with
  | .finish _ => .noAlternative text t
  | .fault e => .lexical e

def unexpected (ending : Ending) (kind : Kind) (after : List Phrase) (tokens : List Token) :
    Except SyntaxError SyntaxError := do
  let t ← look ending tokens 0
  let t₂ ← look ending tokens 1
  if t₂.kind = kind then
    return .extraneous t [kind]
  else if Phrase.canFollow after t.kind then
    return .missing [kind] t
  else
    return .mismatched t [kind]

def checkStart (ending : Ending) (here outer : List Phrase) (tokens : List Token) :
    Except SyntaxError Unit := do
  let t ← look ending tokens 0
  if Phrase.canStart here t.kind || Phrase.canEnd here then
    return
  let t₂ ← look ending tokens 1
  let kinds := Phrase.expected (here ++ outer)
  if kinds.contains t₂.kind then
    throw (.extraneous t kinds)
  else
    throw (.mismatched t kinds)

/-- After each turn of a repetition the same has to hold, and a token that does not fit is taken to
be one too many. -/
def checkAgain (ending : Ending) (here outer : List Phrase) (tokens : List Token) :
    Except SyntaxError Unit := do
  let t ← look ending tokens 0
  if Phrase.canStart here t.kind || Phrase.canEnd here then
    return
  throw (.extraneous t (Phrase.expected (here ++ outer)))

end CompiScript
