import CompiScript.Proofs.Operations.Runs

namespace CompiScript

open Syntax

def Tree.child (t : Tree) : Child :=
  ⟨t, t.visit⟩

theorem Tree.visitEach_eq_map (ts : List Tree) : Tree.visitEach ts = ts.map Tree.child := by
  induction ts with
  | nil => rfl
  | cons t ts ih => rw [Tree.visitEach, ih]; rfl

theorem Tree.visit_node (r : Rule) (cs : List Tree) (manner : Manner) :
    (Tree.node r cs).visit manner = Analysis.visitRule r manner (cs.map Tree.child) := by
  rw [Tree.visit, Tree.visitEach_eq_map]

@[simp]
theorem Tree.isRule_node (r s : Rule) (cs : List Tree) : (Tree.node s cs).isRule r = decide (s = r) :=
  rfl

@[simp]
theorem Tree.isKind_node (k : Kind) (s : Rule) (cs : List Tree) : (Tree.node s cs).isKind k = false :=
  rfl

@[simp]
theorem Tree.child_tree (t : Tree) : t.child.tree = t :=
  rfl

namespace Analysis

@[simp]
theorem ofRule_child (r : Rule) (t : Tree) (cs : List Child) :
    ofRule r (t.child :: cs) = if t.isRule r then t.child :: ofRule r cs else ofRule r cs := by
  by_cases h : t.isRule r = true <;> simp [ofRule, h]

@[simp]
theorem rule?_child (r : Rule) (t : Tree) (cs : List Child) :
    rule? r (t.child :: cs) = if t.isRule r then some t.child else rule? r cs := by
  by_cases h : t.isRule r = true <;> simp [rule?, h]

@[simp]
theorem textsOf_child (k : Kind) (t : Tree) (cs : List Child) :
    textsOf k (t.child :: cs) = if t.isKind k then t.text :: textsOf k cs else textsOf k cs := by
  by_cases h : t.isKind k = true <;> simp [textsOf, h]

@[simp]
theorem ofRule_nil (r : Rule) : ofRule r [] = [] :=
  rfl

@[simp]
theorem rule?_nil (r : Rule) : rule? r [] = none :=
  rfl

@[simp]
theorem textsOf_nil (k : Kind) : textsOf k [] = [] :=
  rfl

end Analysis

namespace Syntax

@[simp]
theorem text_sign (k : Kind) : (sign k).text = word k := by
  simp [sign, Tree.text, Tree.leaves, word, String.join]

@[simp]
theorem text_name (x : Name) : x.tree.text = x.text := by
  simp [Name.tree, Tree.text, Tree.leaves, String.join]

@[simp]
theorem isRule_sign (r : Rule) (k : Kind) : (sign k).isRule r = false :=
  rfl

@[simp]
theorem isKind_sign (k l : Kind) : (sign l).isKind k = decide (l = k) :=
  rfl

@[simp]
theorem isRule_name (r : Rule) (x : Name) : x.tree.isRule r = false :=
  rfl

@[simp]
theorem isKind_name (k : Kind) (x : Name) : x.tree.isKind k = decide (.identifier = k) :=
  rfl

theorem Name.ne_spelling (x : Name) {k : Kind} {s : String} (h : k.spelling? = some s) : x.text ≠ s := by
  rintro rfl
  have := List.find?_eq_none.mp x.plain k (Kind.mem_literals h)
  simp [h] at this

section Chains

variable {α : Type} {tree : α → Tree} {g : Standing} {operand : α → Except AnalysisError (Option Ty)}

theorem ofRule_restTrees (r : Rule) (hr : ∀ a, (tree a).isRule r = true) (rest : List (Kind × α)) :
    Analysis.ofRule r ((Chain.restTrees tree rest).map Tree.child) =
      rest.map fun p => (tree p.2).child := by
  induction rest with
  | nil => rfl
  | cons p rest ih =>
    obtain ⟨k, a⟩ := p
    simp [Chain.restTrees, hr, ih]

theorem operatorText_run (a : α) (before rest : List (Kind × α)) (k : Kind) (b : α) :
    Runs g (Analysis.operatorText (before.length + 1)
      ((tree a :: Chain.restTrees tree (before ++ (k, b) :: rest)).map Tree.child)) (.ok (word k)) g := by
  -- Operators and operands take turns, so the operator is found by counting.
  have hget : (Chain.restTrees tree (before ++ (k, b) :: rest))[2 * before.length]? = some (sign k) := by
    induction before with
    | nil => rfl
    | cons p before ih =>
      obtain ⟨l, c⟩ := p
      simpa [Chain.restTrees, Nat.mul_add] using ih
  have hindex : 2 * (before.length + 1) - 1 = 2 * before.length + 1 := by omega
  simp only [Analysis.operatorText, hindex, List.map_cons, List.getElem?_cons_succ, List.getElem?_map,
    hget, Option.map_some, Tree.child, text_sign, Analysis.required]
  exact .pure _

theorem visitOperands_run (level : Analysis.Level) {seen : Nat → Option Ty → Analysis Unit}
    {check : Kind → Option Ty → Except AnalysisError Unit}
    (ha : ∀ a, Runs g ((tree a).visit .alone) ((operand a).map .type) g) (i : Nat)
    (rest : List (Kind × α))
    (hs : ∀ before k a after, rest = before ++ (k, a) :: after →
      ∀ t, Runs g (seen (i + before.length) t) (check k t) g) :
    Runs g (Analysis.visitOperands level seen i (rest.map fun p => (tree p.2).child))
      (Chain.checkRest operand check rest) g := by
  induction rest generalizing i with
  | nil => exact .pure ()
  | cons p rest ih =>
    obtain ⟨k, a⟩ := p
    simp only [List.map_cons, Analysis.visitOperands, Chain.checkRest]
    refine .remark_bind ((Runs.typeOf (ha a)).bind fun t => ?_)
    refine (hs [] k a rest rfl t).bind fun _ => ih (i + 1) ?_
    intro before l b after he t
    have := hs ((k, a) :: before) l b after (by rw [he]; rfl) t
    simpa [Nat.add_assoc, Nat.add_comm 1] using this

theorem visitLevel_run (level : Analysis.Level) (c : Chain α)
    {first : Option Ty → Analysis Unit} {check : Option Ty → Nat → Option Ty → Analysis Unit}
    {verdict : Option Ty → Kind → Option Ty → Except AnalysisError Unit} (result : Ty)
    (hr : ∀ a, (tree a).isRule level.operand = true)
    (ha : ∀ a, Runs g ((tree a).visit .alone) ((operand a).map .type) g)
    (hf : ∀ t, Runs g (first t) (.ok ()) g)
    (hc : ∀ left before k a after, c.rest = before ++ (k, a) :: after →
      ∀ t, Runs g (check left (before.length + 1) t) (verdict left k t) g) :
    Runs g (Analysis.visitLevel level ((tree c.first :: Chain.restTrees tree c.rest).map Tree.child)
      first check result) ((c.type operand verdict result).map .type) g := by
  obtain ⟨a, rest⟩ := c
  simp only [Analysis.visitLevel, List.map_cons, Analysis.ofRule_child, hr, if_true,
    ofRule_restTrees level.operand hr]
  refine .remark_bind ?_
  cases rest with
  | nil =>
    -- A single operand is visited in the place of the operation.
    exact .remark_bind (ha a)
  | cons p rest =>
    have hrest : ∀ left, Runs g (Analysis.visitOperands level (check left) 1
        ((p :: rest).map fun p => (tree p.2).child)) (Chain.checkRest operand (verdict left) (p :: rest)) g := by
      intro left
      refine visitOperands_run level ha 1 (p :: rest) ?_
      intro before k b after he t
      rw [Nat.add_comm]
      exact hc left before k b after he t
    have hrun := (Runs.typeOf (c := (tree a).child) (ha a)).bind fun left => (hf left).bind fun _ =>
      (hrest left).bind fun _ => Runs.pure (Value.type (some result))
    have hresult : (Chain.type operand verdict result ⟨a, p :: rest⟩).map Value.type =
        operand a >>= fun left => .ok () >>= fun _ => Chain.checkRest operand (verdict left) (p :: rest) >>=
          fun _ => .ok (Value.type (some result)) := by
      simp only [Chain.type]
      cases operand a with
      | error e => rfl
      | ok left =>
        simp only [bind, Except.bind]
        cases Chain.checkRest operand (verdict left) (p :: rest) <;> rfl
    rw [hresult]
    exact hrun

end Chains

theorem nameType_run (g : Standing) (x : Name) :
    Runs g (do
      Analysis.remark ("Getting type for identifier '" ++ x.text ++ "'")
      match ← Analysis.find? x.text .variables with
      | none => throw (.undeclared x.text)
      | some symbol => return .type symbol.type?) ((nameType g x).map Value.type) g := by
  refine .remark_bind ((Runs.find x.text .variables).bind_ok ?_)
  cases h : g.scopes.find? x.text (some .variables) with
  | none =>
    simp only [nameType, h]
    exact .throw _
  | some s =>
    simp only [nameType, h]
    exact .pure _

theorem text_node_sign (r : Rule) (k : Kind) (ts : List Tree) :
    (Tree.node r (sign k :: ts)).text = String.join (word k :: (Tree.leavesAll ts).map Lexeme.text) :=
  rfl

theorem join_singleton (s : String) : String.join [s] = s := by
  simp

theorem join_ne_literals {k : Kind} (rest : List String)
    (hk : k = .superWord ∨ k = .openParen ∨ k = .openBracket ∨ k = .newWord) :
    String.join (word k :: rest) ≠ "true" ∧ String.join (word k :: rest) ≠ "false" ∧
      String.join (word k :: rest) ≠ "nil" := by
  have hne : ∀ t : String, ¬(word k).toList <+: t.toList → String.join (word k :: rest) ≠ t := by
    rintro t h rfl
    exact h ⟨(String.join rest).toList, by simp [String.join_cons]⟩
  rcases hk with rfl | rfl | rfl | rfl <;>
    exact ⟨hne _ (by decide), hne _ (by decide), hne _ (by decide)⟩

theorem Primary.visit_run (g : Standing) (p : Primary) (manner : Manner) :
    Runs g (p.tree.visit manner) ((p.type g).map .type) g := by
  rw [tree, Tree.visit_node]
  simp only [Analysis.visitRule, Analysis.visitPrimary]
  refine .remark_bind ?_
  cases p with
  | number text => exact .pure _
  | string text => exact .pure _
  | truth value => cases value <;> exact .pure _
  | nil => exact .pure _
  | this => exact .pure _
  | name x =>
    have ht : x.text ≠ "true" := x.ne_spelling (k := .trueWord) rfl
    have hf : x.text ≠ "false" := x.ne_spelling (k := .falseWord) rfl
    have hn : x.text ≠ "nil" := x.ne_spelling (k := .nilWord) rfl
    simp only [children, Analysis.textOf?, List.map_cons, List.map_nil, Tree.child_tree, text_name,
      Analysis.textsOf_child, Analysis.textsOf_nil, isKind_name, reduceCtorEq, decide_false, decide_true,
      Bool.false_eq_true, if_true, if_false, List.head?_nil, List.head?_cons, Option.isSome_none,
      join_singleton, ht, hf, hn, or_self]
    exact nameType_run g x
  | inherited x =>
    obtain ⟨ht, hf, hn⟩ := join_ne_literals (k := .superWord) [word .dot, x.text] (by simp)
    simp only [children, Analysis.textOf?, List.map_cons, List.map_nil, Tree.child_tree, text_sign,
      text_name, Analysis.textsOf_child, Analysis.textsOf_nil, isKind_sign, isKind_name, reduceCtorEq,
      decide_false, decide_true, Bool.false_eq_true, if_true, if_false, List.head?_nil, List.head?_cons,
      Option.isSome_none, ht, hf, hn, or_self]
    exact nameType_run g x
  | group inner =>
    obtain ⟨ht, hf, hn⟩ := join_ne_literals (k := .openParen)
      [(Tree.node .expression inner).text, word .closeParen] (by simp)
    simp only [children, List.map_cons, List.map_nil, Tree.child_tree, text_sign, ht, hf, hn]
    exact .pure _
  | array elements =>
    obtain ⟨ht, hf, hn⟩ := join_ne_literals (k := .openBracket)
      ((Tree.leavesAll elements).map Lexeme.text) (by simp)
    simp only [children, List.map_cons, List.map_nil, Tree.child_tree, text_node_sign, join_singleton,
      ht, hf, hn]
    exact .pure _
  | creation parts =>
    obtain ⟨ht, hf, hn⟩ := join_ne_literals (k := .newWord)
      ((Tree.leavesAll parts).map Lexeme.text) (by simp)
    simp only [children, List.map_cons, List.map_nil, Tree.child_tree, text_node_sign, join_singleton,
      ht, hf, hn]
    exact .pure _

theorem Call.visit_run (g : Standing) (c : Call) (manner : Manner) :
    Runs g (c.tree.visit manner) ((c.type g).map .type) g := by
  cases c with
  | primary callee suffixes =>
    rw [tree, Tree.visit_node]
    exact .remark_bind (.remark_bind (callee.visit_run g .alone))
  | function parts =>
    rw [tree, Tree.visit_node]
    exact .remark_bind (.pure _)

theorem Unary.visit_run (g : Standing) (u : Unary) (manner : Manner) :
    Runs g (u.tree.visit manner) ((u.type g).map .type) g := by
  cases u with
  | signed operator operand =>
    rw [tree, Tree.visit_node]
    exact .remark_bind (.pure _)
  | call c =>
    cases c <;>
      (rw [tree, Tree.visit_node]
       exact .remark_bind (.remark_bind (Call.visit_run g _ .alone)))

section Levels

variable {α : Type} {tree : α → Tree} {g : Standing} {c : Chain α} {before after : List (Kind × α)}
  {k : Kind} {a : α}

theorem checkArithmetic_run (left right : Option Ty) (h : c.rest = before ++ (k, a) :: after) :
    Runs g (Analysis.checkArithmetic ((tree c.first :: Chain.restTrees tree c.rest).map Tree.child)
      left (before.length + 1) right) (checkArithmetic g left k right) g := by
  rw [h]
  refine (operatorText_run c.first before after k a).bind_ok (.get_bind ?_)
  rintro s rfl
  exact .checkRemarking _

theorem checkEquality_run (left right : Option Ty) (h : c.rest = before ++ (k, a) :: after) :
    Runs g (do
      Analysis.check (Operand.checkEquality left right (← Analysis.operatorText (before.length + 1)
        ((tree c.first :: Chain.restTrees tree c.rest).map Tree.child))))
      (checkEquality left k right) g := by
  rw [h]
  exact (operatorText_run c.first before after k a).bind_ok (.check _)

end Levels

theorem Factor.visit_run (g : Standing) (e : Factor) (manner : Manner) :
    Runs g ((Factor.tree e).visit manner) ((Factor.type g e).map .type) g := by
  rw [Factor.tree, Chain.tree, Tree.visit_node]
  exact visitLevel_run _ e Ty.num (fun u => by cases u <;> rfl) (fun u => u.visit_run g .alone)
    (fun _ => .pure ()) (fun left _ _ _ _ h right => checkArithmetic_run left right h)

theorem Term.visit_run (g : Standing) (e : Term) (manner : Manner) :
    Runs g ((Term.tree e).visit manner) ((Term.type g e).map .type) g := by
  rw [Term.tree, Chain.tree, Tree.visit_node]
  exact visitLevel_run _ e Ty.num (fun _ => rfl) (fun f => Factor.visit_run g f .alone)
    (fun _ => .pure ()) (fun left _ _ _ _ h right => checkArithmetic_run left right h)

theorem Comparison.visit_run (g : Standing) (e : Comparison) (manner : Manner) :
    Runs g ((Comparison.tree e).visit manner) ((Comparison.type g e).map .type) g := by
  rw [Comparison.tree, Chain.tree, Tree.visit_node]
  exact visitLevel_run _ e Ty.boolean (fun _ => rfl) (fun t => Term.visit_run g t .alone)
    (fun _ => .remark _) (fun left _ _ _ _ h right => .remark_bind (checkArithmetic_run left right h))

theorem Equality.visit_run (g : Standing) (e : Equality) (manner : Manner) :
    Runs g ((Equality.tree e).visit manner) ((Equality.type g e).map .type) g := by
  rw [Equality.tree, Chain.tree, Tree.visit_node]
  exact visitLevel_run _ e Ty.boolean (fun _ => rfl) (fun c => Comparison.visit_run g c .alone)
    (fun _ => .pure ()) (fun left _ _ _ _ h right => checkEquality_run left right h)

theorem LogicAnd.visit_run (g : Standing) (e : LogicAnd) (manner : Manner) :
    Runs g ((LogicAnd.tree e).visit manner) ((LogicAnd.type g e).map .type) g := by
  rw [LogicAnd.tree, Chain.tree, Tree.visit_node]
  exact visitLevel_run _ e Ty.boolean (fun _ => rfl) (fun c => Equality.visit_run g c .alone)
    (fun _ => .pure ()) (fun left _ _ _ _ _ right => .check _)

theorem LogicOr.visit_run (g : Standing) (e : LogicOr) (manner : Manner) :
    Runs g ((LogicOr.tree e).visit manner) ((LogicOr.type g e).map .type) g := by
  rw [LogicOr.tree, Chain.tree, Tree.visit_node]
  exact visitLevel_run _ e Ty.boolean (fun _ => rfl) (fun c => LogicAnd.visit_run g c .alone)
    (fun _ => .pure ()) (fun left _ _ _ _ _ right => .check _)

end Syntax

end CompiScript
