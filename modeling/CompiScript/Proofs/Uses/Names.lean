import CompiScript.Proofs.Outline

namespace CompiScript

open Syntax

def primaryName : Rule → List Tree → List String
  | .primary, [.leaf x] => if x.kind = .identifier then [x.text] else []
  | _, _ => []

mutual

/-- The identifiers that are primaries, outside classes and anonymous functions, in order. -/
def Tree.uses : Tree → List String
  | .leaf _ => []
  | .node r cs =>
    if r = .classDecl ∨ r = .funAnon then [] else primaryName r cs ++ Tree.usesAll cs

def Tree.usesAll : List Tree → List String
  | [] => []
  | t :: ts => t.uses ++ Tree.usesAll ts

end

attribute [simp] Tree.usesAll

@[simp]
theorem Tree.usesAll_append (ts us : List Tree) :
    Tree.usesAll (ts ++ us) = Tree.usesAll ts ++ Tree.usesAll us := by
  induction ts with
  | nil => rfl
  | cons t ts ih => rw [List.cons_append, usesAll, usesAll, ih, List.append_assoc]

theorem Tree.uses_node {r : Rule} (cs : List Tree)
    (hr : r ≠ .classDecl ∧ r ≠ .funAnon ∧ r ≠ .primary) : (Tree.node r cs).uses = Tree.usesAll cs := by
  have hname : primaryName r cs = [] := by
    cases r <;> first | rfl | exact absurd rfl hr.2.2
  rw [uses, if_neg (not_or.mpr ⟨hr.1, hr.2.1⟩), hname, List.nil_append]

theorem Tree.uses_single {r : Rule} (t : Tree)
    (hr : r ≠ .classDecl ∧ r ≠ .funAnon ∧ r ≠ .primary) : (Tree.node r [t]).uses = t.uses := by
  rw [uses_node _ hr, usesAll, usesAll, List.append_nil]

namespace Syntax

@[simp]
theorem uses_sign (k : Kind) : (sign k).uses = [] :=
  rfl

@[simp]
theorem uses_name (x : Name) : x.tree.uses = [] :=
  rfl

namespace Primary

def seen : Primary → List String
  | name x => [x.text]
  | _ => []

def unseen : Primary → List String
  | group inner => Tree.usesAll inner
  | array elements => Tree.usesAll elements
  | creation parts => Tree.usesAll parts
  | _ => []

end Primary

namespace Unary

def seen : Unary → List String
  | signed _ _ => []
  | call (.primary callee _) => callee.seen
  | call (.function _) => []

def unseen : Unary → List String
  | signed _ operand => Tree.usesAll operand
  | call (.primary callee suffixes) => callee.unseen ++ Tree.usesAll suffixes
  | call (.function _) => []

end Unary

def Chain.operands {α : Type} (c : Chain α) : List α :=
  c.first :: c.rest.map Prod.snd

def LogicOr.unaries (e : LogicOr) : List Unary :=
  e.operands.flatMap fun a => a.operands.flatMap fun q => q.operands.flatMap fun c =>
    c.operands.flatMap fun t => t.operands.flatMap fun f => f.operands

namespace Assignment

def seen : Assignment → List String
  | assign _ _ value => value.seen
  | operation e => e.unaries.flatMap Unary.seen

def unseen : Assignment → List String
  | assign object _ value => Tree.usesAll (objectTrees object) ++ value.unseen
  | operation e => e.unaries.flatMap Unary.unseen

end Assignment

namespace Expression

def seen : Expression → List String
  | assignment a => a.seen
  | function _ => []

def unseen : Expression → List String
  | assignment a => a.unseen
  | function _ => []

end Expression

theorem Primary.uses_tree (p : Primary) : p.tree.uses = p.seen ++ p.unseen := by
  cases p with
  | truth value => cases value <;> rfl
  | group inner => simp [tree, children, Tree.uses, primaryName, seen, unseen]
  | array elements => simp [tree, children, Tree.uses, primaryName, seen, unseen]
  | creation parts => simp [tree, children, Tree.uses, primaryName, seen, unseen]
  | _ => rfl

theorem Unary.uses_tree (u : Unary) : u.tree.uses = u.seen ++ u.unseen := by
  cases u with
  | signed operator operand =>
    rw [tree, Tree.uses_node _ (by decide), Tree.usesAll, Tree.usesAll, Tree.uses_node _ (by decide)]
    simp [seen, unseen]
  | call c =>
    cases c with
    | primary callee suffixes =>
      rw [tree, Tree.uses_single _ (by decide), Call.tree, Tree.uses_node _ (by decide)]
      simp [seen, unseen, callee.uses_tree]
    | function parts => rfl

theorem Chain.uses_tree {α : Type} {r : Rule} (hr : r ≠ .classDecl ∧ r ≠ .funAnon ∧ r ≠ .primary)
    {operand : α → Tree} {units : α → List Unary}
    (h : ∀ a, (operand a).uses = (units a).flatMap fun u => u.tree.uses) (c : Chain α) :
    (c.tree r operand).uses = (c.operands.flatMap units).flatMap fun u => u.tree.uses := by
  obtain ⟨a, rest⟩ := c
  have hrest : Tree.usesAll (restTrees operand rest) =
      ((rest.map Prod.snd).flatMap units).flatMap fun u => u.tree.uses := by
    induction rest with
    | nil => rfl
    | cons p rest ih =>
      obtain ⟨k, b⟩ := p
      simp [restTrees, h, ih]
  rw [tree, Tree.uses_node _ hr, Tree.usesAll, h, hrest, operands, List.flatMap_cons, List.flatMap_append]

theorem LogicOr.uses_tree (e : LogicOr) :
    (LogicOr.tree e).uses = e.unaries.flatMap fun u => u.tree.uses := by
  have hfactor : ∀ f : Factor, (Factor.tree f).uses = f.operands.flatMap fun u => u.tree.uses := by
    intro f
    have hone : ∀ u : Unary, u.tree.uses = [u].flatMap fun u => u.tree.uses := fun u => by simp
    have huses := Chain.uses_tree (r := .factor) (by decide) hone f
    rwa [List.flatMap_singleton'] at huses
  have hterm := Chain.uses_tree (r := .term) (by decide) hfactor
  have hcomparison := Chain.uses_tree (r := .comparison) (by decide) hterm
  have hequality := Chain.uses_tree (r := .equality) (by decide) hcomparison
  have hand := Chain.uses_tree (r := .logicAnd) (by decide) hequality
  exact Chain.uses_tree (r := .logicOr) (by decide) hand e

theorem Assignment.mem_uses_tree (a : Assignment) (x : String) :
    x ∈ a.tree.uses ↔ x ∈ a.seen ∨ x ∈ a.unseen := by
  induction a with
  | assign object target value ih =>
    rw [tree, Tree.uses_node _ (by decide), Tree.usesAll_append]
    simp only [Tree.usesAll, uses_sign, uses_name, List.nil_append, List.append_nil, List.mem_append, ih,
      seen, unseen, or_left_comm]
  | operation e =>
    rw [tree, Tree.uses_single _ (by decide), LogicOr.uses_tree]
    simp only [List.mem_flatMap, Unary.uses_tree, List.mem_append, seen, unseen]
    constructor
    · rintro ⟨u, hu, hx | hx⟩
      · exact .inl ⟨u, hu, hx⟩
      · exact .inr ⟨u, hu, hx⟩
    · rintro (⟨u, hu, hx⟩ | ⟨u, hu, hx⟩)
      · exact ⟨u, hu, .inl hx⟩
      · exact ⟨u, hu, .inr hx⟩

theorem Expression.mem_uses_tree (e : Expression) (x : String) :
    x ∈ e.tree.uses ↔ x ∈ e.seen ∨ x ∈ e.unseen := by
  cases e with
  | assignment a =>
    rw [tree, Tree.uses_single _ (by decide)]
    exact a.mem_uses_tree x
  | function parts => simp [tree, Tree.uses_node, Tree.uses, seen, unseen]

theorem Chain.type_ok {α : Type} {operand : α → Except AnalysisError (Option Ty)}
    {check : Option Ty → Kind → Option Ty → Except AnalysisError Unit} {result : Ty} {c : Chain α} {t : Option Ty}
    (h : c.type operand check result = .ok t) : ∀ a ∈ c.operands, ∃ u, operand a = .ok u := by
  have hrest : ∀ left rest, checkRest operand (check left) rest = .ok () →
      ∀ a ∈ rest.map Prod.snd, ∃ u, operand a = .ok u := by
    intro left rest hr
    induction rest with
    | nil => exact fun a ha => nomatch ha
    | cons p rest ih =>
      obtain ⟨k, b⟩ := p
      obtain ⟨right, hb, hmore⟩ := bind_eq_ok hr
      obtain ⟨-, -, hr⟩ := bind_eq_ok hmore
      intro a ha
      rcases List.mem_cons.mp ha with rfl | hmem
      · exact ⟨right, hb⟩
      · exact ih hr a hmem
  obtain ⟨a, rest⟩ := c
  intro b hb
  cases rest with
  | nil =>
    rw [List.mem_singleton.mp hb]
    exact ⟨t, h⟩
  | cons p rest =>
    obtain ⟨left, ha, hmore⟩ := bind_eq_ok h
    obtain ⟨_, hr, -⟩ := bind_eq_ok hmore
    rcases List.mem_cons.mp hb with rfl | hmem
    · exact ⟨left, ha⟩
    · exact hrest left (p :: rest) hr b hmem

theorem Unary.find?_of_type_ok {g : Standing} {u : Unary} {t : Option Ty} (h : u.type g = .ok t) {x : String}
    (hx : x ∈ u.seen) : (g.scopes.find? x (some .variables)).isSome = true := by
  cases u with
  | signed operator operand => cases hx
  | call c =>
    cases c with
    | function parts => cases hx
    | primary callee suffixes =>
      cases callee with
      | name y =>
        rw [List.mem_singleton.mp hx]
        change nameType g y = .ok t at h
        simp only [nameType] at h
        split at h
        · cases h
        · next hfound => rw [hfound]; rfl
      | _ => cases hx

theorem LogicOr.type_ok {g : Standing} {e : LogicOr} {t : Option Ty} (h : e.type g = .ok t)
    {u : Unary} (hu : u ∈ e.unaries) : ∃ t, u.type g = .ok t := by
  simp only [unaries, List.mem_flatMap] at hu
  obtain ⟨a, ha, q, hq, c, hc, t, ht, f, hf, hu⟩ := hu
  obtain ⟨_, ha⟩ := Chain.type_ok h a ha
  obtain ⟨_, hq⟩ := Chain.type_ok ha q hq
  obtain ⟨_, hc⟩ := Chain.type_ok hq c hc
  obtain ⟨_, ht⟩ := Chain.type_ok hc t ht
  obtain ⟨_, hf⟩ := Chain.type_ok ht f hf
  exact Chain.type_ok hf u hu

theorem Assignment.seen_has {a : Assignment} {g g' : Stage} (h : execute a.steps g = (none, g')) {x : String}
    (hx : x ∈ a.seen) : g.scopes.sketch.Has x .variables := by
  induction a generalizing g g' with
  | assign object target value ih =>
    obtain ⟨g₁, haim, hrest⟩ := execute_cons_ok h
    obtain ⟨g₂, hvalue, -⟩ := execute_append_ok hrest
    have hsame : g₁.scopes.sketch = g.scopes.sketch := Step.run_sketch haim
    rw [← hsame]
    exact ih hvalue hx
  | operation e =>
    obtain ⟨g₁, hweigh, -⟩ := execute_cons_ok h
    obtain ⟨u, hu, hx⟩ := List.mem_flatMap.mp hx
    simp only [Step.run] at hweigh
    cases ht : e.type g.toStanding with
    | error err => rw [ht] at hweigh; cases hweigh
    | ok t =>
      obtain ⟨_, htype⟩ := LogicOr.type_ok ht hu
      exact Scopes.has_of_find? (by decide) (Unary.find?_of_type_ok htype hx)

theorem Expression.seen_has {e : Expression} {g g' : Stage} (h : execute e.steps g = (none, g')) {x : String}
    (hx : x ∈ e.seen) : g.scopes.sketch.Has x .variables := by
  cases e with
  | assignment a => exact a.seen_has h hx
  | function parts => cases hx

end Syntax

end CompiScript
