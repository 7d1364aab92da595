import CompiScript.Grammar.Lookahead
import CompiScript.Parser.Ahead

namespace CompiScript

namespace Phrase

def isElsePart : Phrase → Bool
  | option .nearestIf _ => true
  | _ => false

def openIfs : List Phrase → Nat
  | [] => 0
  | p :: ps => if p.nullable then (if p.isElsePart then 1 else 0) + openIfs ps else 0

end Phrase

namespace Choice

def chooseNamed (ending : Ending) (tokens : List Token) : Except SyntaxError Bool := do
  let t ← look ending tokens 0
  if t.kind ≠ .funWord then
    return false
  let t₂ ← look ending tokens 1
  match t₂.kind with
  | .identifier => return true
  | .openParen => return false
  | _ => throw (noAlternative ending (t.contribution ++ t₂.contribution) t₂)

def settleFunction (_ : Bool) (stack : List Ahead) (_ : Kind) : Option Bool :=
  if stack.isEmpty then some true else none

def chooseWhole (ending : Ending) (tokens : List Token) : Except SyntaxError Bool := do
  let t ← look ending tokens 0
  if t.kind = .funWord then
    Ahead.follow settleFunction ending false "" [.phrase (.rule .funAnon)] tokens
  else
    return true

def settleAssignment (_ : Bool) : List Ahead → Kind → Option Bool
  | [.target], .equal => some true
  | [.target], k => if k = .dot || k = .openParen || k = .openBracket then none else some false
  | [.operand], k => if k = .dot || k = .openParen || k = .openBracket then none else some false
  | [.function], k => some (k = .dot)
  | _, _ => none

def chooseAssignment (ending : Ending) (tokens : List Token) : Except SyntaxError Bool := do
  let t ← look ending tokens 0
  if t.kind = .bang || t.kind = .minus then
    return false
  else
    Ahead.follow settleAssignment ending false "" [.phrase (.rule .assignment)] tokens

def chooseTarget (ending : Ending) (tokens : List Token) : Except SyntaxError Bool := do
  let t ← look ending tokens 0
  if t.kind ≠ .identifier then
    return true
  let t₂ ← look ending tokens 1
  return t₂.kind ≠ .equal

def chooseSuffix (ending : Ending) (tokens : List Token) : Except SyntaxError Bool := do
  let t ← look ending tokens 0
  if t.kind = .openParen || t.kind = .openBracket then
    return true
  if t.kind ≠ .dot then
    return false
  let t₂ ← look ending tokens 1
  if t₂.kind ≠ .identifier then
    return false
  let t₃ ← look ending tokens 2
  return t₃.kind ≠ .equal

def settleLoneElse (ended : Bool) (stack : List Ahead) (k : Kind) : Option Bool :=
  if ended then some true
  else if (Ahead.step stack k).isSome then none
  else some false

def settleElse (after : List Phrase) (ended : Bool) (stack : List Ahead) (k : Kind) :
    Option Bool :=
  if stack.isEmpty then some true
  else if (Ahead.step stack k).isSome then none
  else if Phrase.canEnd after then some ended
  else if stack.all Ahead.skippable && Phrase.canFollow after k then some true
  else none

/-- An `else` is taken by the statement that it follows; its part is read ahead first where another
statement could take it as well, or where the text could end before it. -/
def chooseElse (ending : Ending) (part : Phrase) (after : List Phrase) (tokens : List Token) :
    Except SyntaxError Bool := do
  let t ← look ending tokens 0
  if t.kind ≠ .elseWord then
    return false
  match Phrase.openIfs after with
  | 0 =>
    if Phrase.canEnd after then
      Ahead.follow settleLoneElse ending false "" [.phrase part] tokens
    else
      return true
  | n + 1 =>
    let parts := List.replicate n (Ahead.phrase (.option .nearestIf part))
    Ahead.follow (settleElse after) ending false "" (.phrase part :: parts) tokens

def decide (choice : Choice) (ending : Ending) (part : Phrase) (after : List Phrase)
    (tokens : List Token) : Except SyntaxError Bool :=
  match choice with
  | byToken => (look ending tokens 0).map fun t => part.starts t.kind
  | namedFunction => chooseNamed ending tokens
  | nearestIf => chooseElse ending part after tokens
  | wholeFunction => chooseWhole ending tokens
  | assignmentSign => chooseAssignment ending tokens
  | targetObject => chooseTarget ending tokens
  | callSuffix => chooseSuffix ending tokens

theorem decide_byToken {r : Rule} (h : r ≠ .declaration) {t : TokenTest} {part : Phrase}
    (hpart : (t, part) ∈ r.tests.zip (r.phrase.parts false)) (ending : Ending) (after : List Phrase)
    (tokens : List Token) :
    byToken.decide ending part after tokens = (look ending tokens 0).map fun token => t.holds token.kind := by
  simp only [decide, Rule.holds_eq_starts h hpart]

end Choice

end CompiScript
