import CompiScript.Grammar.Rule
import CompiScript.Token.Kind

/-!
Phrases are what the right-hand sides of the rules are made of. Each optional part, repetition and
alternative says how it is decided, by one look at the next token or by a rule of its own.
-/

namespace CompiScript

/-- How a reader decides whether to enter an optional part, to go round once more or to take the
first of two alternatives. -/
inductive Choice where
  | byToken
  | namedFunction
  | nearestIf
  | wholeFunction
  | assignmentSign
  | targetObject
  | callSuffix
deriving DecidableEq, Repr

inductive Phrase where
  | nothing
  | token (kind : Kind)
  | oneOf (kinds : List Kind)
  | rule (name : Rule)
  | seq (first second : Phrase)
  | option (choice : Choice) (body : Phrase)
  | many (choice : Choice) (body : Phrase)
  | either (choice : Choice) (first second : Phrase)
deriving DecidableEq, Repr

namespace Phrase

def row : List Phrase → Phrase
  | [] => nothing
  | [p] => p
  | p :: ps => seq p (row ps)

def choose : List Phrase → Phrase
  | [] => nothing
  | [p] => p
  | p :: ps => either .byToken p (choose ps)

def optional (ps : List Phrase) : Phrase :=
  option .byToken (row ps)

def repeated (ps : List Phrase) : Phrase :=
  many .byToken (row ps)

def chain (operators : Phrase) (operand : Rule) : Phrase :=
  row [rule operand, repeated [operators, rule operand]]

def nullable : Phrase → Bool
  | nothing => true
  | token _ => false
  | oneOf _ => false
  | rule _ => false
  | seq a b => a.nullable && b.nullable
  | option _ _ => true
  | many _ _ => true
  | either _ a b => a.nullable || b.nullable

def startsWith (leads : Rule → Kind → Bool) : Phrase → Kind → Bool
  | nothing, _ => false
  | token t, k => t == k
  | oneOf ts, k => ts.contains k
  | rule r, k => leads r k
  | seq a b, k => a.startsWith leads k || (a.nullable && b.startsWith leads k)
  | option _ a, k => a.startsWith leads k
  | many _ a, k => a.startsWith leads k
  | either _ a b, k => a.startsWith leads k || b.startsWith leads k

inductive Count where
  | never | once | several
deriving DecidableEq, Repr

namespace Count

def add : Count → Count → Count
  | never, n => n
  | n, never => n
  | _, _ => several

def max : Count → Count → Count
  | several, _ => several
  | _, several => several
  | never, n => n
  | once, _ => once

end Count

def count (counts : Phrase → Bool) : Phrase → Count
  | seq a b => (a.count counts).add (b.count counts)
  | option _ a => a.count counts
  | many _ a => if a.count counts = .never then .never else .several
  | either _ a b => (a.count counts).max (b.count counts)
  | p => if counts p then .once else .never

end Phrase

end CompiScript
