import CompiScript.Parser.Input

/-!
Reading ahead. Where one token does not decide between alternatives, the tokens are followed by a
machine with a stack of what has still to come; it needs no decisions of its own, because it keeps
apart only what makes a difference: whether the operand just read can be assigned to.
-/

namespace CompiScript

inductive Ahead where
  | phrase (form : Phrase)
  | target
  | operand
  | function
  | declared
deriving DecidableEq, Repr

namespace Ahead

def skippable : Ahead → Bool
  | phrase p => p.nullable
  | declared => false
  | _ => true

def readPhrase (readRule : Rule → Kind → Option (List Ahead)) : Phrase → Kind → Option (List Ahead)
  | .nothing, _ => none
  | .token t, k => if t = k then some [] else none
  | .oneOf ts, k => if ts.contains k then some [] else none
  | .rule r, k => readRule r k
  | .seq a b, k =>
    match readPhrase readRule a k with
    | some left => some (left ++ [phrase b])
    | none => if a.nullable then readPhrase readRule b k else none
  | .option _ a, k => readPhrase readRule a k
  | .many c a, k => (readPhrase readRule a k).map (· ++ [phrase (.many c a)])
  | .either _ a b, k =>
    match readPhrase readRule a k with
    | some left => some left
    | none => readPhrase readRule b k

def readRule : Nat → Rule → Kind → Option (List Ahead)
  | 0, _, _ => none
  | _ + 1, .declaration, .funWord => some [declared]
  | _ + 1, .assignment, .identifier => some [target]
  | n + 1, .assignment, .funWord =>
    (readPhrase (readRule n) Rule.funAnon.phrase .funWord).map (· ++ [function])
  | n + 1, .assignment, k =>
    match readPhrase (readRule n) Rule.primary.phrase k with
    | some left => some (left ++ [operand])
    | none => readPhrase (readRule n) Rule.logicOr.phrase k
  | n + 1, r, k => readPhrase (readRule n) r.phrase k

def operators : List Phrase :=
  [.repeated [.oneOf [.slash, .star, .percent], .rule .unary],
    .repeated [.oneOf [.minus, .plus], .rule .factor],
    .repeated [.oneOf [.greater, .greaterEqual, .less, .lessEqual], .rule .term],
    .repeated [.oneOf [.notEqual, .equalEqual], .rule .comparison],
    .repeated [.token .andWord, .rule .equality],
    .repeated [.token .orWord, .rule .logicAnd]]

def readOptions : List Phrase → Kind → Option (List Ahead)
  | [], _ => none
  | p :: ps, k =>
    match readPhrase (readRule Rule.depth) p k with
    | some left => some (left ++ ps.map phrase)
    | none => readOptions ps k

def readSuffix : Kind → Option (List Ahead)
  | .dot => some [phrase (.token .identifier), target]
  | .openParen =>
    some [phrase (.optional [.rule .arguments]), phrase (.token .closeParen), operand]
  | .openBracket => some [phrase (.rule .expression), phrase (.token .closeBracket), operand]
  | k => readOptions operators k

def read : Ahead → Kind → Option (List Ahead)
  | phrase p, k => readPhrase (readRule Rule.depth) p k
  | target, .equal => some [phrase (.rule .assignment)]
  | target, k => readSuffix k
  | operand, k => readSuffix k
  | function, .dot =>
    some [phrase (.token .identifier), phrase (.token .equal), phrase (.rule .assignment)]
  | function, k => readOptions operators k
  | declared, .openParen =>
    some [phrase (.optional [.rule .parameters]), phrase (.token .closeParen),
      phrase (.rule .block), function, phrase (.token .semicolon)]
  | declared, k => readPhrase (readRule Rule.depth) (.rule .function) k

def step : List Ahead → Kind → Option (List Ahead)
  | [], _ => none
  | a :: rest, k =>
    match a.read k with
    | some left => some (left ++ rest)
    | none => if a.skippable then step rest k else none

/-- Follows the tokens until `settle` decides, from the stack, the next token and whether all that
has to come could be empty at some place before, or until no way is left; `seen` is the text of the
tokens read so far. -/
def follow (settle : Bool → List Ahead → Kind → Option Bool) (ending : Ending) :
    Bool → String → List Ahead → List Token → Except SyntaxError Bool
  | ended, seen, stack, [] => do
    let t ← ending.token
    match settle ended stack t.kind with
    | some answer => return answer
    | none => throw (noAlternative ending seen t)
  | ended, seen, stack, t :: ts =>
    match settle ended stack t.kind with
    | some answer => return answer
    | none =>
      match step stack t.kind with
      | some left =>
        follow settle ending (ended || left.all skippable) (seen ++ t.text) left ts
      | none => throw (noAlternative ending (seen ++ t.text) t)

end Ahead

end CompiScript
