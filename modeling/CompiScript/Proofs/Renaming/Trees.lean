import Mathlib.Data.List.Forall2
import CompiScript.Proofs.Blindness.Erasure
import CompiScript.Proofs.Identifiers
import CompiScript.Proofs.Relabelling

namespace CompiScript

open Syntax Step

def Lexeme.rename (r : String → String) (x : Lexeme) : Lexeme :=
  if x.kind = .identifier then ⟨.identifier, r x.text⟩ else x

theorem Lexeme.kind_rename (r : String → String) (x : Lexeme) : (x.rename r).kind = x.kind := by
  rw [rename]
  split
  · next h => exact h.symm
  · rfl

abbrev Tree.rename (r : String → String) : Tree → Tree :=
  Tree.relabel (.rename r)

abbrev Tree.renameAll (r : String → String) : List Tree → List Tree :=
  Tree.relabelAll (.rename r)

mutual

theorem Tree.rename_congr {r q : String → String} : ∀ t : Tree, (∀ x ∈ t.identifiers, r x = q x) →
    t.rename r = t.rename q
  | .leaf x, h => by
    by_cases hx : x.kind = .identifier
    · have hmem : x.text ∈ (Tree.leaf x).identifiers := by simp [identifiers, leaves, hx]
      simp [rename, Lexeme.rename, hx, h x.text hmem]
    · simp [rename, Lexeme.rename, hx]
  | .node s cs, h => by
    refine congrArg (Tree.node s) (Tree.renameAll_congr cs fun t ht x hx => h x ?_)
    rw [mem_identifiers] at hx ⊢
    exact mem_leavesAll ht hx

theorem Tree.renameAll_congr {r q : String → String} : ∀ ts : List Tree,
    (∀ t ∈ ts, ∀ x ∈ t.identifiers, r x = q x) → Tree.renameAll r ts = Tree.renameAll q ts
  | [], _ => rfl
  | t :: ts, h => by
    have ht := Tree.rename_congr t (h t (.head _))
    have hts := Tree.renameAll_congr ts fun u hu => h u (.tail _ hu)
    exact congrArg₂ List.cons ht hts

end

theorem Lexed.scan_text_ne (p : Position) (cs : List Char) : ∀ t ∈ (scan p cs).tokens, t.text ≠ "" := by
  fun_induction scan p cs with
  | case1 p => simp
  | case2 p c rest h => simp
  | case3 p c rest n segment after k h ih =>
    have hsegment : String.ofList segment ≠ "" := by
      rw [Ne, ← String.toList_inj, String.toList_ofList]
      exact List.cons_ne_nil _ _
    intro t ht
    rcases List.mem_cons.mp ht with rfl | ht
    · exact hsegment
    · exact ih t ht
  | case4 p c rest r n h segment after hr ih => exact ih

theorem blank_not_identifier {text : String} {d : Derived} (h : parseText .program text = .ok d) :
    "" ∉ d.tree.identifiers := by
  obtain ⟨trees, used, rest, n, htree, -, htokens, -, hleaves⟩ := parseText_covers h
  rw [Tree.mem_identifiers, htree, Tree.leaves, hleaves, List.mem_append]
  rintro (hused | heof)
  · obtain ⟨t, ht, hlexeme⟩ := List.mem_map.mp hused
    have hmem : t ∈ (Lexed.ofString text).tokens := by
      rw [htokens]
      exact List.mem_append_left _ ht
    exact Lexed.scan_text_ne _ _ t hmem (congrArg Lexeme.text hlexeme)
  · cases (List.mem_replicate.mp heof).2

/-- New names for those in `I`: different names stay different, and none of them is a word of the language. -/
structure Renaming (I : String → Prop) where
  apply : String → String
  injective : ∀ x y, I x → I y → apply x = apply y → x = y
  plain : ∀ x, I x → Kind.ofSpelling? (apply x) = none
  blank : ¬I ""

variable {I : String → Prop} (ρ : Renaming I)

namespace Renaming

def total (x : String) : String :=
  if x ≠ "" ∧ Kind.ofSpelling? (ρ.apply x) = none then ρ.apply x else ""

theorem total_eq {x : String} (hx : I x) : ρ.total x = ρ.apply x := by
  have hne : x ≠ "" := by
    rintro rfl
    exact ρ.blank hx
  exact if_pos ⟨hne, ρ.plain x hx⟩

theorem total_plain (x : String) : Kind.ofSpelling? (ρ.total x) = none := by
  rw [total]
  split
  · next h => exact h.2
  · decide

end Renaming

namespace Syntax

@[simp]
theorem rename_sign (k : Kind) : (sign k).rename ρ.total = sign k := by
  cases k <;> rfl

def Name.rename (x : Name) : Name :=
  ⟨ρ.total x.text, ρ.total_plain x.text⟩

def Primary.rename : Primary → Primary
  | name x => name (x.rename ρ)
  | inherited x => inherited (x.rename ρ)
  | group inner => group (Tree.renameAll ρ.total inner)
  | array elements => array (Tree.renameAll ρ.total elements)
  | creation parts => creation (Tree.renameAll ρ.total parts)
  | p => p

def Call.rename : Call → Call
  | primary callee suffixes => primary (callee.rename ρ) (Tree.renameAll ρ.total suffixes)
  | function parts => function (Tree.renameAll ρ.total parts)

def Unary.rename : Unary → Unary
  | signed operator operand => signed operator (Tree.renameAll ρ.total operand)
  | call c => call (c.rename ρ)

def LogicOr.rename (e : LogicOr) : LogicOr :=
  e.map (Chain.map (Chain.map (Chain.map (Chain.map (Chain.map (Unary.rename ρ))))))

def Assignment.rename : Assignment → Assignment
  | assign object target value =>
    assign (object.map (Tree.renameAll ρ.total)) (target.rename ρ) value.rename
  | operation e => operation (e.rename ρ)

def Expression.rename : Expression → Expression
  | assignment a => assignment (a.rename ρ)
  | function parts => function (Tree.renameAll ρ.total parts)

def VarDecl.rename (v : VarDecl) : VarDecl :=
  ⟨v.name.rename ρ, v.value.map (Expression.rename ρ)⟩

def ForInit.rename : ForInit → ForInit
  | .variable v => .variable (v.rename ρ)
  | expression e => expression (e.rename ρ)
  | nothing => nothing

def ForHead.rename (h : ForHead) : ForHead :=
  ⟨h.init.rename ρ, h.condition.map (Expression.rename ρ), h.update.map (Expression.rename ρ)⟩

def Params.rename (ps : Params) : Params :=
  ⟨ps.first.rename ρ, ps.rest.map (Name.rename ρ)⟩

mutual

def Statement.rename : Statement → Statement
  | .expression e => .expression (e.rename ρ)
  | .forLoop head body => .forLoop (head.rename ρ) body.rename
  | .ifThen condition yes => .ifThen (condition.rename ρ) yes.rename
  | .ifElse condition yes no => .ifElse (condition.rename ρ) yes.rename no.rename
  | .print e => .print (e.rename ρ)
  | .giveBack value => .giveBack (value.map (Expression.rename ρ))
  | .whileLoop condition body => .whileLoop (condition.rename ρ) body.rename
  | .block body => .block (Declaration.renameAll body)

def Declaration.rename : Declaration → Declaration
  | .classType parts => .classType (Tree.renameAll ρ.total parts)
  | .function name params body =>
    .function (name.rename ρ) (params.map (Params.rename ρ)) (Declaration.renameAll body)
  | .variable v => .variable (v.rename ρ)
  | .statement s => .statement s.rename

def Declaration.renameAll : List Declaration → List Declaration
  | [] => []
  | d :: ds => d.rename :: Declaration.renameAll ds

end

def Program.rename (p : Program) : Program :=
  ⟨Declaration.renameAll ρ p.body⟩

@[simp]
theorem Name.tree_rename (x : Name) : (x.rename ρ).tree = x.tree.rename ρ.total :=
  rfl

theorem Primary.tree_rename (p : Primary) : (p.rename ρ).tree = p.tree.rename ρ.total := by
  cases p with
  | truth value => cases value <;> rfl
  | group inner => simp [rename, tree, children]
  | array elements => simp [rename, tree, children]
  | creation parts => simp [rename, tree, children]
  | _ => rfl

theorem Unary.tree_rename (u : Unary) : (u.rename ρ).tree = u.tree.rename ρ.total := by
  cases u with
  | signed operator operand => simp [rename, tree]
  | call c =>
    cases c with
    | primary callee suffixes => simp [rename, tree, Call.rename, Call.tree, callee.tree_rename]
    | function parts => simp [rename, tree, Call.rename, Call.tree]

theorem Chain.tree_rename {α : Type} {operand : α → Tree} {f : α → α}
    (hf : ∀ a, operand (f a) = (operand a).rename ρ.total) (s : Rule) (c : Chain α) :
    (c.map f).tree s operand = (c.tree s operand).rename ρ.total := by
  obtain ⟨a, rest⟩ := c
  have hrest : restTrees operand (rest.map fun p => (p.1, f p.2)) =
      Tree.renameAll ρ.total (restTrees operand rest) := by
    induction rest with
    | nil => rfl
    | cons p rest ih =>
      obtain ⟨k, b⟩ := p
      simp [restTrees, hf, ih]
  simp [map, tree, hf, hrest]

theorem LogicOr.tree_rename (e : LogicOr) : LogicOr.tree (e.rename ρ) = (LogicOr.tree e).rename ρ.total := by
  have hfactor := Chain.tree_rename ρ (Unary.tree_rename ρ) .factor
  have hterm := Chain.tree_rename ρ hfactor .term
  have hcomparison := Chain.tree_rename ρ hterm .comparison
  have hequality := Chain.tree_rename ρ hcomparison .equality
  have hand := Chain.tree_rename ρ hequality .logicAnd
  exact Chain.tree_rename ρ hand .logicOr e

theorem Assignment.tree_rename (a : Assignment) : (a.rename ρ).tree = a.tree.rename ρ.total := by
  induction a with
  | assign object target value ih =>
    cases object with
    | none => simp [rename, tree, objectTrees, ih]
    | some parts => simp [rename, tree, objectTrees, ih]
  | operation e => simp [rename, tree, LogicOr.tree_rename]

theorem Expression.tree_rename (e : Expression) : (e.rename ρ).tree = e.tree.rename ρ.total := by
  cases e with
  | assignment a => simp [rename, tree, a.tree_rename]
  | function parts => simp [rename, tree]

theorem Expression.trees_rename (e : Option Expression) :
    Expression.trees (e.map (Expression.rename ρ)) = Tree.renameAll ρ.total (Expression.trees e) := by
  cases e with
  | none => rfl
  | some e => simp [trees, e.tree_rename]

theorem VarDecl.tree_rename (v : VarDecl) : (v.rename ρ).tree = v.tree.rename ρ.total := by
  obtain ⟨name, value⟩ := v
  cases value with
  | none => simp [rename, tree, valueTrees]
  | some e => simp [rename, tree, valueTrees, e.tree_rename]

theorem ForHead.trees_rename (h : ForHead) : (h.rename ρ).trees = Tree.renameAll ρ.total h.trees := by
  obtain ⟨init, condition, update⟩ := h
  have hinit : (init.rename ρ).tree = init.tree.rename ρ.total := by
    cases init with
    | «variable» v => exact v.tree_rename ρ
    | expression e => simp [ForInit.rename, ForInit.tree, e.tree_rename]
    | nothing => simp [ForInit.rename, ForInit.tree]
  simp [rename, trees, hinit, Expression.trees_rename]

theorem Params.trees_rename (params : Option Params) :
    Params.trees (params.map (Params.rename ρ)) = Tree.renameAll ρ.total (Params.trees params) := by
  cases params with
  | none => rfl
  | some ps =>
    have hrest : restTrees (ps.rest.map (Name.rename ρ)) = Tree.renameAll ρ.total (restTrees ps.rest) := by
      induction ps.rest with
      | nil => rfl
      | cons x rest ih => simp [restTrees, ih]
    simp [trees, tree, rename, hrest]

mutual

theorem Statement.tree_rename : ∀ s : Statement, (s.rename ρ).tree = s.tree.rename ρ.total
  | .expression e => by simp [Statement.rename, Statement.tree, e.tree_rename]
  | .forLoop head body => by simp [Statement.rename, Statement.tree, head.trees_rename, body.tree_rename]
  | .ifThen condition yes => by
    simp [Statement.rename, Statement.tree, condition.tree_rename, yes.tree_rename]
  | .ifElse condition yes no => by
    simp [Statement.rename, Statement.tree, condition.tree_rename, yes.tree_rename, no.tree_rename]
  | .print e => by simp [Statement.rename, Statement.tree, e.tree_rename]
  | .giveBack value => by simp [Statement.rename, Statement.tree, Expression.trees_rename]
  | .whileLoop condition body => by
    simp [Statement.rename, Statement.tree, condition.tree_rename, body.tree_rename]
  | .block body => by simp [Statement.rename, Statement.tree, Declaration.trees_rename body]

theorem Declaration.tree_rename : ∀ d : Declaration, (d.rename ρ).tree = d.tree.rename ρ.total
  | .classType _ => by simp [Declaration.rename, Declaration.tree]
  | .function name params body => by
    simp [Declaration.rename, Declaration.tree, Params.trees_rename, Declaration.trees_rename body]
  | .variable v => by simp [Declaration.rename, Declaration.tree, v.tree_rename]
  | .statement s => by simp [Declaration.rename, Declaration.tree, s.tree_rename]

theorem Declaration.trees_rename : ∀ ds : List Declaration,
    Declaration.trees (Declaration.renameAll ρ ds) = Tree.renameAll ρ.total (Declaration.trees ds)
  | [] => rfl
  | d :: ds => by simp [Declaration.renameAll, Declaration.trees, d.tree_rename, Declaration.trees_rename ds]

end

theorem Program.tree_rename (p : Program) : (p.rename ρ).tree = p.tree.rename ρ.total := by
  have heof : Lexeme.eof.rename ρ.total = .eof := rfl
  simp [rename, tree, Declaration.trees_rename, heof]

end Syntax

end CompiScript
