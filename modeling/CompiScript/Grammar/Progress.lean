import CompiScript.Grammar.Basic

/-!
Why reading ends: a phrase that surely reads a token leaves fewer of them, and a rule that is
entered before a token is read weighs less than the one it is entered from.
-/

namespace CompiScript

namespace Phrase

def advances : Phrase → Bool
  | nothing => false
  | token k => k != .eof
  | oneOf ks => !ks.contains .eof
  | rule r => r != .program
  | seq a b => a.advances || b.advances
  | option _ _ => false
  | many _ _ => false
  | either _ a b => a.advances && b.advances

end Phrase

namespace Rule

def rank : Rule → Nat
  | program => 105
  | declaration => 100
  | statement => 95
  | exprStmt => 85
  | arguments => 85
  | expression => 80
  | assignment => 75
  | logicOr => 70
  | logicAnd => 65
  | equality => 60
  | comparison => 55
  | term => 50
  | factor => 45
  | unary => 40
  | call => 35
  | primary => 30
  | _ => 10

end Rule

namespace Phrase

def load : Nat :=
  200

def weight : Phrase → Nat
  | nothing => 0
  | token _ => 0
  | oneOf _ => 0
  | rule r => r.rank
  | seq a b => 1 + max a.weight (if a.advances then b.weight - load else b.weight)
  | option _ a => 1 + a.weight
  | many _ a => 1 + a.weight
  | either _ a b => 1 + max a.weight b.weight

end Phrase

namespace Rule

theorem weight_phrase_lt_rank (r : Rule) : r.phrase.weight < r.rank := by
  cases r <;> decide

theorem phrase_advances (r : Rule) (h : r ≠ .program) : r.phrase.advances = true := by
  cases r <;> first | exact absurd rfl h | decide

end Rule

end CompiScript
