import CompiScript.Proofs.Uses.Names

namespace CompiScript

open Syntax

namespace Syntax

/-- An expression with the names declared before it, in the scope where it stands or around it. -/
structure Site where
  names : List (String × Category)
  expression : Expression

def Site.Declares (site : Site) (x : String) : Prop :=
  ∃ c, (x, c) ∈ site.names

def VarDecl.sites (names : List (String × Category)) (v : VarDecl) : List Site :=
  v.value.toList.map fun e => ⟨(v.name.text, .variables) :: names, e⟩

def ForInit.sites (names : List (String × Category)) : ForInit → List Site
  | .variable v => v.sites names
  | expression e => [⟨names, e⟩]
  | nothing => []

def ForHead.sites (names : List (String × Category)) (h : ForHead) : List Site :=
  h.init.sites names ++ (h.condition.toList ++ h.update.toList).map fun e => ⟨h.init.keys ++ names, e⟩

mutual

def Statement.sites (names : List (String × Category)) : Statement → List Site
  | .expression e => [⟨names, e⟩]
  | .forLoop head body => head.sites names ++ body.sites (head.init.keys ++ names)
  | .ifThen condition yes => ⟨names, condition⟩ :: yes.sites names
  | .ifElse condition yes no => ⟨names, condition⟩ :: (yes.sites names ++ no.sites names)
  | .print e => [⟨names, e⟩]
  | .giveBack value => value.toList.map fun e => ⟨names, e⟩
  | .whileLoop condition body => ⟨names, condition⟩ :: body.sites names
  | .block body => Declaration.sitesAll names body

def Declaration.sites (names : List (String × Category)) : Declaration → List Site
  | .classType _ => []
  | .function name params body =>
    Declaration.sitesAll (Params.keys params ++ (name.text, .functions) :: names) body
  | .variable v => v.sites names
  | .statement s => s.sites names

def Declaration.sitesAll (names : List (String × Category)) : List Declaration → List Site
  | [] => []
  | d :: ds => d.sites names ++ Declaration.sitesAll (d.keys ++ names) ds

end

def Program.sites (p : Program) : List Site :=
  Declaration.sitesAll [] p.body

def siteUses (sites : List Site) : List String :=
  sites.flatMap fun site => site.expression.tree.uses

theorem siteUses_append (ss ts : List Site) : siteUses (ss ++ ts) = siteUses ss ++ siteUses ts :=
  List.flatMap_append

theorem VarDecl.uses_tree (names : List (String × Category)) (v : VarDecl) :
    v.tree.uses = siteUses (v.sites names) := by
  obtain ⟨name, value⟩ := v
  rw [tree, Tree.uses_node _ (by decide)]
  cases value <;> simp [valueTrees, siteUses, sites]

theorem ForHead.usesAll_trees (names : List (String × Category)) (h : ForHead) :
    Tree.usesAll h.trees = siteUses (h.sites names) := by
  obtain ⟨init, condition, update⟩ := h
  have hinit : init.tree.uses = siteUses (init.sites names) := by
    cases init with
    | «variable» v => exact v.uses_tree names
    | expression e => simp [ForInit.tree, Tree.uses_node, siteUses, ForInit.sites]
    | nothing => rfl
  simp only [trees, sites, siteUses_append, Tree.usesAll_append]
  cases condition <;> cases update <;>
    simp [hinit, Expression.trees, siteUses]

theorem Params.usesAll_trees (params : Option Params) : Tree.usesAll (Params.trees params) = [] := by
  cases params with
  | none => rfl
  | some ps =>
    have hrest : Tree.usesAll (restTrees ps.rest) = [] := by
      induction ps.rest with
      | nil => rfl
      | cons x rest ih => simp [restTrees, ih]
    simp [trees, tree, Tree.uses_node, hrest]

mutual

theorem Statement.uses_tree (names : List (String × Category)) : ∀ s : Statement,
    s.tree.uses = siteUses (s.sites names)
  | .expression e => by
    rw [Statement.tree, Tree.uses_single _ (by decide), Tree.uses_node _ (by decide)]
    simp [siteUses, Statement.sites]
  | .forLoop head body => by
    rw [Statement.tree, Tree.uses_single _ (by decide), Tree.uses_node _ (by decide),
      Tree.usesAll_append, head.usesAll_trees names]
    simp [body.uses_tree (head.init.keys ++ names), Statement.sites, siteUses_append]
  | .ifThen condition yes => by
    rw [Statement.tree, Tree.uses_single _ (by decide), Tree.uses_node _ (by decide)]
    simp [yes.uses_tree names, Statement.sites, siteUses]
  | .ifElse condition yes no => by
    rw [Statement.tree, Tree.uses_single _ (by decide), Tree.uses_node _ (by decide)]
    simp [yes.uses_tree names, no.uses_tree names, Statement.sites, siteUses]
  | .print e => by
    rw [Statement.tree, Tree.uses_single _ (by decide), Tree.uses_node _ (by decide)]
    simp [siteUses, Statement.sites]
  | .giveBack value => by
    rw [Statement.tree, Tree.uses_single _ (by decide), Tree.uses_node _ (by decide)]
    cases value <;> simp [Expression.trees, siteUses, Statement.sites]
  | .whileLoop condition body => by
    rw [Statement.tree, Tree.uses_single _ (by decide), Tree.uses_node _ (by decide)]
    simp [body.uses_tree names, Statement.sites, siteUses]
  | .block body => by
    rw [Statement.tree, Tree.uses_single _ (by decide), Tree.uses_node _ (by decide)]
    simp [Declaration.usesAll_trees names body, Statement.sites]

theorem Declaration.uses_tree (names : List (String × Category)) : ∀ d : Declaration,
    d.tree.uses = siteUses (d.sites names)
  | .classType parts => by
    rw [Declaration.tree, Tree.uses_single _ (by decide)]
    rfl
  | .function name params body => by
    rw [Declaration.tree, Tree.uses_single _ (by decide), Tree.uses_node _ (by decide)]
    simp [Tree.uses_node, Params.usesAll_trees, Declaration.sites,
      Declaration.usesAll_trees (Params.keys params ++ (name.text, .functions) :: names) body]
  | .variable v => by
    rw [Declaration.tree, Tree.uses_single _ (by decide)]
    exact v.uses_tree names
  | .statement s => by
    rw [Declaration.tree, Tree.uses_single _ (by decide)]
    exact s.uses_tree names

theorem Declaration.usesAll_trees (names : List (String × Category)) : ∀ ds : List Declaration,
    Tree.usesAll (Declaration.trees ds) = siteUses (Declaration.sitesAll names ds)
  | [] => rfl
  | d :: ds => by
    rw [Declaration.trees, Tree.usesAll, d.uses_tree names, Declaration.usesAll_trees (d.keys ++ names) ds,
      Declaration.sitesAll, siteUses_append]

end

def Site.Sound (site : Site) : Prop :=
  ∀ x ∈ site.expression.seen, (x, .variables) ∈ site.names

end Syntax

end CompiScript
