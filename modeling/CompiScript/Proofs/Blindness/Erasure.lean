import CompiScript.Proofs.Reading.Statements
import CompiScript.Proofs.Simulation.Functions

/-!
What the analysis does not look at. The erasure of a tree puts fixed trees in the place of what
stands in parentheses, of arrays, creations, signs with their operands, anonymous functions and
classes, and leaves out the suffixes of calls and what stands in front of the point of a target. Main
statement: a program and its erasure come to the same, so programs with the same erasure do.
-/

namespace CompiScript

open Syntax

namespace Blank

-- The parts that are put in the place of all others of their kind. The sign that an array or a
-- creation begins with is not among them.

def expression : List Tree :=
  [(Assignment.operation (.ofUnary (.call (.primary .nil [])))).tree]

def operand : List Tree :=
  [(Call.primary .nil []).tree]

def array : List Tree :=
  [sign .closeBracket]

def creation : List Tree :=
  [.leaf ⟨.identifier, "x"⟩, sign .openParen, sign .closeParen]

def function : List Tree :=
  [sign .funWord, sign .openParen, sign .closeParen, .node .block [sign .openBrace, sign .closeBrace]]

def classType : List Tree :=
  [sign .classWord, .leaf ⟨.identifier, "x"⟩, sign .openBrace, sign .closeBrace]

end Blank

/-- The children of a node without what the analysis passes over there. -/
def Tree.trim : Rule → List Tree → List Tree
  | .classDecl, _ => Blank.classType
  | .funAnon, _ => Blank.function
  | .array, _ => sign .openBracket :: Blank.array
  | .instantiation, _ => sign .newWord :: Blank.creation
  | .primary, [.leaf left, .node .expression _, .leaf right] =>
    [.leaf left, .node .expression Blank.expression, .leaf right]
  | .unary, [.leaf _, .node .unary _] => [sign .bang, .node .unary Blank.operand]
  | .call, callee :: _ => [callee]
  | .assignment, [.node .call _, .leaf _, target, equal, value] => [target, equal, value]
  | _, cs => cs

mutual

def Tree.erase : Tree → Tree
  | .leaf x => .leaf x
  | .node r cs => .node r (Tree.trim r (Tree.eraseAll cs))

def Tree.eraseAll : List Tree → List Tree
  | [] => []
  | t :: ts => t.erase :: Tree.eraseAll ts

end

attribute [simp] Tree.eraseAll

@[simp]
theorem Tree.eraseAll_append (ts us : List Tree) :
    Tree.eraseAll (ts ++ us) = Tree.eraseAll ts ++ Tree.eraseAll us := by
  induction ts with
  | nil => rfl
  | cons t ts ih => rw [List.cons_append, eraseAll, eraseAll, ih, List.cons_append]

def Rule.isOpen : Rule → Bool
  | .classDecl => false
  | .funAnon => false
  | .array => false
  | .instantiation => false
  | .primary => false
  | .unary => false
  | .call => false
  | .assignment => false
  | _ => true

@[simp]
theorem Tree.erase_node {r : Rule} (hr : r.isOpen = true) (cs : List Tree) :
    (Tree.node r cs).erase = .node r (Tree.eraseAll cs) := by
  cases r <;> first | rfl | cases hr

namespace Syntax

@[simp]
theorem erase_sign (k : Kind) : (sign k).erase = sign k :=
  rfl

@[simp]
theorem erase_name (x : Name) : x.tree.erase = x.tree :=
  rfl

def Primary.erase : Primary → Primary
  | group _ => group Blank.expression
  | array _ => array Blank.array
  | creation _ => creation Blank.creation
  | p => p

def Call.erase : Call → Call
  | primary callee _ => primary callee.erase []
  | function _ => function Blank.function

def Unary.erase : Unary → Unary
  | signed _ _ => signed .bang Blank.operand
  | call c => call c.erase

def Chain.map {α β : Type} (f : α → β) (c : Chain α) : Chain β :=
  ⟨f c.first, c.rest.map fun p => (p.1, f p.2)⟩

def LogicOr.erase (e : LogicOr) : LogicOr :=
  e.map (Chain.map (Chain.map (Chain.map (Chain.map (Chain.map Unary.erase)))))

def Assignment.erase : Assignment → Assignment
  | assign _ target value => assign none target value.erase
  | operation e => operation e.erase

def Expression.erase : Expression → Expression
  | assignment a => assignment a.erase
  | function _ => function Blank.function

def VarDecl.erase (v : VarDecl) : VarDecl :=
  ⟨v.name, v.value.map Expression.erase⟩

def ForInit.erase : ForInit → ForInit
  | .variable v => .variable v.erase
  | expression e => expression e.erase
  | nothing => nothing

def ForHead.erase (h : ForHead) : ForHead :=
  ⟨h.init.erase, h.condition.map Expression.erase, h.update.map Expression.erase⟩

mutual

def Statement.erase : Statement → Statement
  | .expression e => .expression e.erase
  | .forLoop head body => .forLoop head.erase body.erase
  | .ifThen condition yes => .ifThen condition.erase yes.erase
  | .ifElse condition yes no => .ifElse condition.erase yes.erase no.erase
  | .print e => .print e.erase
  | .giveBack value => .giveBack (value.map Expression.erase)
  | .whileLoop condition body => .whileLoop condition.erase body.erase
  | .block body => .block (Declaration.eraseAll body)

def Declaration.erase : Declaration → Declaration
  | .classType _ => .classType Blank.classType
  | .function name params body => .function name params (Declaration.eraseAll body)
  | .variable v => .variable v.erase
  | .statement s => .statement s.erase

def Declaration.eraseAll : List Declaration → List Declaration
  | [] => []
  | d :: ds => d.erase :: Declaration.eraseAll ds

end

def Program.erase (p : Program) : Program :=
  ⟨Declaration.eraseAll p.body⟩

theorem Primary.tree_erase (p : Primary) : p.erase.tree = p.tree.erase := by
  cases p with
  | truth value => cases value <;> rfl
  | _ => rfl

theorem Call.tree_erase (c : Call) : c.erase.tree = c.tree.erase := by
  cases c with
  | primary callee suffixes => rw [erase, tree, callee.tree_erase]; rfl
  | function parts => rfl

theorem Unary.tree_erase (u : Unary) : u.erase.tree = u.tree.erase := by
  cases u with
  | signed operator operand => rfl
  | call c =>
    rw [erase, tree, c.tree_erase]
    cases c <;> rfl

theorem Chain.tree_map {α : Type} {r : Rule} (hr : r.isOpen = true) {operand : α → Tree} {f : α → α}
    (hf : ∀ a, operand (f a) = (operand a).erase) (c : Chain α) :
    (c.map f).tree r operand = (c.tree r operand).erase := by
  obtain ⟨a, rest⟩ := c
  have hrest : restTrees operand (rest.map fun p => (p.1, f p.2)) =
      Tree.eraseAll (restTrees operand rest) := by
    induction rest with
    | nil => rfl
    | cons p rest ih =>
      obtain ⟨k, b⟩ := p
      simp only [List.map_cons, restTrees, Tree.eraseAll, erase_sign, hf, ih]
  rw [tree, tree, Tree.erase_node hr, Tree.eraseAll, ← hf, ← hrest]
  rfl

theorem LogicOr.tree_erase (e : LogicOr) : LogicOr.tree e.erase = (LogicOr.tree e).erase := by
  have hfactor := Chain.tree_map (r := .factor) rfl Unary.tree_erase
  have hterm := Chain.tree_map (r := .term) rfl hfactor
  have hcomparison := Chain.tree_map (r := .comparison) rfl hterm
  have hequality := Chain.tree_map (r := .equality) rfl hcomparison
  have hand := Chain.tree_map (r := .logicAnd) rfl hequality
  exact Chain.tree_map (r := .logicOr) rfl hand e

theorem Assignment.tree_erase (a : Assignment) : a.erase.tree = a.tree.erase := by
  induction a with
  | assign object target value ih =>
    cases object with
    | none => rw [erase, tree, ih, tree]; rfl
    | some parts => rw [erase, tree, ih, tree]; rfl
  | operation e => rw [erase, tree, LogicOr.tree_erase, tree]; rfl

theorem Expression.tree_erase (e : Expression) : e.erase.tree = e.tree.erase := by
  cases e with
  | assignment a => rw [erase, tree, a.tree_erase]; rfl
  | function parts => rfl

theorem Expression.trees_erase (e : Option Expression) :
    Expression.trees (e.map Expression.erase) = Tree.eraseAll (Expression.trees e) := by
  cases e with
  | none => rfl
  | some e => simp only [Option.map_some, trees, Tree.eraseAll, e.tree_erase]

theorem VarDecl.tree_erase (v : VarDecl) : v.erase.tree = v.tree.erase := by
  obtain ⟨name, value⟩ := v
  cases value with
  | none => rfl
  | some e => simp (disch := decide) [erase, tree, valueTrees, e.tree_erase]

theorem ForHead.trees_erase (h : ForHead) : h.erase.trees = Tree.eraseAll h.trees := by
  obtain ⟨init, condition, update⟩ := h
  have hinit : init.erase.tree = init.tree.erase := by
    cases init with
    | «variable» v => exact v.tree_erase
    | expression e => simp (disch := decide) [ForInit.erase, ForInit.tree, e.tree_erase]
    | nothing => rfl
  simp [erase, trees, hinit, Expression.trees_erase]

theorem Params.trees_erase (params : Option Params) :
    Tree.eraseAll (Params.trees params) = Params.trees params := by
  cases params with
  | none => rfl
  | some ps =>
    have hrest : Tree.eraseAll (restTrees ps.rest) = restTrees ps.rest := by
      induction ps.rest with
      | nil => rfl
      | cons x rest ih => simp [restTrees, ih]
    simp (disch := decide) [trees, tree, hrest]

mutual

theorem Statement.tree_erase : ∀ s : Statement, s.erase.tree = s.tree.erase
  | .expression e => by
    simp (disch := decide) [Statement.erase, Statement.tree, e.tree_erase]
  | .forLoop head body => by
    simp (disch := decide) [Statement.erase, Statement.tree, head.trees_erase, body.tree_erase]
  | .ifThen condition yes => by
    simp (disch := decide) [Statement.erase, Statement.tree, condition.tree_erase, yes.tree_erase]
  | .ifElse condition yes no => by
    simp (disch := decide) [Statement.erase, Statement.tree, condition.tree_erase, yes.tree_erase,
      no.tree_erase]
  | .print e => by
    simp (disch := decide) [Statement.erase, Statement.tree, e.tree_erase]
  | .giveBack value => by
    simp (disch := decide) [Statement.erase, Statement.tree, Expression.trees_erase]
  | .whileLoop condition body => by
    simp (disch := decide) [Statement.erase, Statement.tree, condition.tree_erase, body.tree_erase]
  | .block body => by
    simp (disch := decide) [Statement.erase, Statement.tree, Declaration.trees_erase body]

theorem Declaration.tree_erase : ∀ d : Declaration, d.erase.tree = d.tree.erase
  | .classType _ => rfl
  | .function name params body => by
    simp (disch := decide) [Declaration.erase, Declaration.tree, Params.trees_erase,
      Declaration.trees_erase body]
  | .variable v => by
    simp (disch := decide) [Declaration.erase, Declaration.tree, v.tree_erase]
  | .statement s => by
    simp (disch := decide) [Declaration.erase, Declaration.tree, s.tree_erase]

theorem Declaration.trees_erase : ∀ ds : List Declaration,
    Declaration.trees (Declaration.eraseAll ds) = Tree.eraseAll (Declaration.trees ds)
  | [] => rfl
  | d :: ds => by
    rw [Declaration.eraseAll, Declaration.trees, d.tree_erase, Declaration.trees_erase ds]
    rfl

end

theorem Program.tree_erase (p : Program) : p.erase.tree = p.tree.erase := by
  rw [tree, tree, Tree.erase_node rfl, Tree.eraseAll_append, ← Declaration.trees_erase]
  rfl

end Syntax

end CompiScript
