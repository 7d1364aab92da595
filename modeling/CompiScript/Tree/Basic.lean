import CompiScript.Grammar.Rule
import CompiScript.Text.Visible
import CompiScript.Token.Basic

namespace CompiScript

inductive Tree where
  | leaf (lexeme : Lexeme)
  | node (rule : Rule) (children : List Tree)
deriving Repr, Inhabited

namespace Tree

mutual

def decEq : ∀ t u : Tree, Decidable (t = u)
  | leaf x, leaf y => decidable_of_iff (x = y) (Iff.of_eq (leaf.injEq x y)).symm
  | leaf _, node _ _ => .isFalse nofun
  | node _ _, leaf _ => .isFalse nofun
  | node r ts, node s us =>
    haveI := decEqAll ts us
    decidable_of_iff (r = s ∧ ts = us) (Iff.of_eq (node.injEq r ts s us)).symm

def decEqAll : ∀ ts us : List Tree, Decidable (ts = us)
  | [], [] => .isTrue rfl
  | [], _ :: _ => .isFalse nofun
  | _ :: _, [] => .isFalse nofun
  | t :: ts, u :: us =>
    haveI := decEq t u
    haveI := decEqAll ts us
    decidable_of_iff (t = u ∧ ts = us) (Iff.of_eq (List.cons.injEq t ts u us)).symm

end

instance : DecidableEq Tree :=
  decEq

def isRule (r : Rule) : Tree → Bool
  | leaf _ => false
  | node s _ => s = r

def isKind (k : Kind) : Tree → Bool
  | leaf x => x.kind = k
  | node _ _ => false

def children : Tree → List Tree
  | leaf _ => []
  | node _ cs => cs

mutual

def leaves : Tree → List Lexeme
  | leaf x => [x]
  | node _ cs => leavesAll cs

def leavesAll : List Tree → List Lexeme
  | [] => []
  | t :: ts => t.leaves ++ leavesAll ts

end

mutual

def rules : Tree → List Rule
  | leaf _ => []
  | node r cs => r :: rulesAll cs

def rulesAll : List Tree → List Rule
  | [] => []
  | t :: ts => t.rules ++ rulesAll ts

end

mutual

def subtrees : Tree → List Tree
  | leaf x => [leaf x]
  | node r cs => node r cs :: subtreesAll cs

def subtreesAll : List Tree → List Tree
  | [] => []
  | t :: ts => t.subtrees ++ subtreesAll ts

end

def text (t : Tree) : String :=
  String.join (t.leaves.map Lexeme.text)

mutual

def bracketed : Tree → String
  | leaf x => Text.visible x.text
  | node r [] => r.name
  | node r (c :: cs) => "(" ++ r.name ++ bracketedAll (c :: cs) ++ ")"

def bracketedAll : List Tree → String
  | [] => ""
  | t :: ts => " " ++ t.bracketed ++ bracketedAll ts

end

end Tree

end CompiScript
