import CompiScript.Grammar.Basic

namespace CompiScript

/-- A look at the number of the next token: a set of numbers below 64 as a mask of bits, or a list of them. -/
inductive TokenTest where
  | mask (bits : Nat)
  | codes (codes : List Int)
deriving DecidableEq, Repr

namespace TokenTest

def holds : TokenTest → Kind → Bool
  | mask bits, k => decide (0 ≤ k.code) && decide (k.code < 64) && bits.testBit k.code.toNat
  | codes cs, k => cs.contains k.code

def declarations : TokenTest :=
  mask 17577220888170

def expressions : TokenTest :=
  mask 17577220768800

def comparisonSigns : TokenTest :=
  mask 62914560

def factorSigns : TokenTest :=
  mask 1879048192

def operations : TokenTest :=
  codes [5, 10, 26, 31, 34, 35, 36, 37, 38, 39, 40, 41, 42, 43]

def calls : TokenTest :=
  codes [5, 10, 31, 34, 36, 37, 38, 39, 40, 41, 42, 43]

def operands : TokenTest :=
  codes [10, 31, 34, 36, 37, 38, 39, 40, 41, 42, 43]

end TokenTest

namespace Rule

open TokenTest

/-- The looks at the next token by which the parts of a rule are chosen, in their order. What begins a declaration, an
expression or an assignment is told from more than one token. -/
def tests : Rule → List TokenTest
  | program => [declarations]
  | declaration => []
  | classDecl => [codes [2], codes [43]]
  | funDecl => []
  | varDecl => [codes [7]]
  | statement => [operations, codes [9], codes [12], codes [14], codes [15], codes [16], codes [3]]
  | exprStmt => []
  | forStmt => [codes [6], operations, codes [8], expressions, expressions]
  | ifStmt => []
  | printStmt => []
  | returnStmt => [expressions]
  | whileStmt => []
  | block => [declarations]
  | funAnon => [codes [43]]
  | expression => []
  | assignment => []
  | logicOr => [codes [18]]
  | logicAnd => [codes [19]]
  | equality => [codes [20, 21]]
  | comparison => [comparisonSigns]
  | term => [codes [26, 27]]
  | factor => [factorSigns]
  | array => [expressions, codes [32]]
  | instantiation => [expressions]
  | unary => [codes [26, 35], calls]
  | call => [operands, codes [10], expressions, codes [17], codes [31], codes [5]]
  | primary =>
    [codes [36], codes [37], codes [38], codes [39], codes [41], codes [42], codes [43],
      codes [10], codes [40], codes [31], codes [34]]
  | function => [codes [43]]
  | parameters => [codes [32]]
  | arguments => [codes [32]]

end Rule

namespace Phrase

def parts (chosen : Bool) : Phrase → List Phrase
  | either .byToken a b => a.parts true ++ b.parts true
  | option .byToken a => a.parts true
  | many .byToken a => a.parts true
  | seq a b => (if chosen then [seq a b] else []) ++ a.parts false ++ b.parts false
  | option _ a => a.parts false
  | many _ a => a.parts false
  | either _ a b => a.parts false ++ b.parts false
  | p => if chosen then [p] else []

end Phrase

namespace Rule

theorem map_tests_eq {r : Rule} (h : r ≠ declaration) :
    r.tests.map (fun t => Kind.all.map t.holds) = (r.phrase.parts false).map fun p => Kind.all.map p.starts := by
  revert h
  cases r <;> decide +kernel

theorem eq_of_mem_zip {α β γ : Type} {f : α → γ} {g : β → γ} {as : List α} {bs : List β} (h : as.map f = bs.map g)
    {a : α} {b : β} (hab : (a, b) ∈ as.zip bs) : f a = g b := by
  induction as generalizing bs with
  | nil => cases hab
  | cons a' as ih =>
    cases bs with
    | nil => cases hab
    | cons b' bs =>
      obtain ⟨hhead, htail⟩ := List.cons.inj h
      rcases List.mem_cons.mp hab with heq | hmem
      · cases heq
        exact hhead
      · exact ih htail hmem

theorem holds_eq_starts {r : Rule} (h : r ≠ declaration) {t : TokenTest} {p : Phrase}
    (hp : (t, p) ∈ r.tests.zip (r.phrase.parts false)) (k : Kind) : t.holds k = p.starts k :=
  List.map_inj_left.mp (eq_of_mem_zip (map_tests_eq h) hp) k k.mem_all

end Rule

end CompiScript
