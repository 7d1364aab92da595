import CompiScript.Proofs.Operations.Types
import CompiScript.Proofs.Simulation.Follows

namespace CompiScript

open Syntax

namespace Syntax

open Step

@[simp]
theorem isRule_assignment (a : Assignment) (r : Rule) : a.tree.isRule r = decide (.assignment = r) := by
  cases a <;> rfl

@[simp]
theorem isRule_expression (e : Expression) (r : Rule) : e.tree.isRule r = decide (.expression = r) := by
  cases e <;> rfl

@[simp]
theorem isRule_statement (s : Statement) (r : Rule) : s.tree.isRule r = decide (.statement = r) := by
  cases s <;> rfl

@[simp]
theorem isRule_declaration (d : Declaration) (r : Rule) :
    d.tree.isRule r = decide (.declaration = r) := by
  cases d <;> rfl

theorem LogicOr.follows (g : Stage) (e : LogicOr) :
    Follows g ((LogicOr.tree e).visit .alone) [weigh e] fun v t => v = .type t := by
  have hrun := LogicOr.visit_run g.toStanding e .alone
  apply Follows.step
  · intro g' h
    simp only [run] at h
    cases ht : e.type g.toStanding with
    | ok t => rw [ht] at h hrun; cases h; exact ⟨.type t, hrun, rfl⟩
    | error err => rw [ht] at h; cases h
  · intro err h
    simp only [run] at h
    cases ht : e.type g.toStanding with
    | ok t => rw [ht] at h; cases h
    | error err => rw [ht] at h hrun; cases h; exact hrun

theorem assignTo_follows (g : Stage) (target : String) :
    Follows g (Analysis.assignTo target g.type) [.assign target] fun _ t => t = none := by
  refine .quiet_bind (.find target .variables) ?_
  cases ht : (g.scopes.find? target (some .variables)).bind Symbol.type? with
  | none =>
    refine .step_ok (n := { g with scopes := g.scopes.setType target g.type, type := none }) (v := ()) ?_ ?_ rfl
    · simp only [run, assignIn, ht]
    · exact (Runs.modifyScopes _).bind_ok (.remark_bind ((Runs.find _ _).bind_ok (.remark _)))
  | some t =>
    by_cases hne : t.text ≠ Ty.show? g.type
    · refine .refuse (e := .cannotAssign g.type target (some t)) ?_ ?_
      · simp only [run, assignIn, ht, if_pos hne]
      · simp only [if_pos hne]
        exact (Runs.throw _).bind_error
    · refine .step_ok (n := { g with type := none }) (v := ()) ?_ ?_ rfl
      · simp only [run, assignIn, ht, if_neg hne]
      · simp only [if_neg hne]
        exact (Runs.find _ _).bind_ok (.remark _)

theorem Assignment.follows (g : Stage) (a : Assignment) :
    Follows g (a.tree.visit .alone) a.steps fun v t => v = .type t := by
  induction a generalizing g with
  | operation e =>
    rw [tree, Tree.visit_node]
    exact .remark_bind (.remark_bind (LogicOr.follows g e))
  | assign object target value ih =>
    have hi : Analysis.textOf? .identifier ((objectTrees object ++ [target.tree, sign .equal, value.tree]).map
        Tree.child) = some target.text := by
      cases object <;> simp [Analysis.textOf?, objectTrees]
    have hv : Analysis.rule? .assignment ((objectTrees object ++ [target.tree, sign .equal, value.tree]).map
        Tree.child) = some value.tree.child := by
      cases object <;> simp [objectTrees]
    rw [tree, Tree.visit_node]
    simp only [Analysis.visitRule, Analysis.visitAssignment, hi, hv]
    refine .remark_bind (.remark_bind ?_)
    by_cases hnone : (g.scopes.find? target.text (some .variables)).isNone = true
    · refine .refuse (e := .undeclaredTarget target.text g.scopes.current.describe) ?_ ?_
      · simp only [run, if_pos hnone]
      · refine (Runs.find _ _).bind_ok ?_
        rw [if_pos hnone]
        exact Runs.currentText.bind_ok (Runs.throw _).bind_error
    · refine .skip (n := g) (by simp only [run, if_neg hnone]) rfl (.quiet_bind (.find _ _) ?_)
      rw [if_neg hnone]
      refine .quiet_bind .currentText (.remark_bind (.bind (.typeOf (ih g)) ?_))
      rintro v g' rfl
      refine (assignTo_follows g' target.text).then_pure ?_
      rintro _ t rfl
      rfl

theorem Expression.follows (g : Stage) (e : Expression) :
    Follows g (e.tree.visit .alone) e.steps fun v t => v = .type t := by
  cases e with
  | assignment a =>
    rw [tree, Tree.visit_node]
    simp only [Analysis.visitRule, Analysis.visitExpression, List.map_cons, Analysis.rule?_child, isRule_assignment,
      decide_true, if_true]
    exact .remark_bind (.remark_bind (a.follows g))
  | function parts =>
    rw [tree, Tree.visit_node]
    exact .remark_bind (.step_ok (n := { g with type := none }) rfl (.pure _) rfl)

@[simp]
theorem isRule_varDecl (v : VarDecl) (r : Rule) : v.tree.isRule r = decide (.varDecl = r) :=
  rfl

theorem declare_follows {β : Type} {g : Stage} {what : Declared} {name t : String} {u : String → String}
    {k : Reference → Analysis β} {more : List Step} {last : β → Option Ty → Prop}
    (hk : ∀ scopes, g.scopes.add (Symbol.ofEntity name what.entity) = .ok scopes →
      Follows { g with scopes := scopes } (k (scopes.reference name)) more last) :
    Follows g (do
      Analysis.refuseDeclared what what.category name
      Analysis.remark t
      Analysis.remark (u (← Analysis.currentText))
      let v ← Analysis.declare name what.entity
      k v) (declare what name :: more) last := by
  -- The name is looked for twice: by the analysis, and again when the symbol is added.
  by_cases hsome : (g.scopes.find? name (some what.category)).isSome = true
  · refine .refuse (e := .alreadyDeclared what name) (by simp only [run, declareIn, if_pos hsome]) ?_
    refine Runs.bind_error ((Runs.find _ _).bind_ok ?_)
    rw [if_pos hsome]
    exact .throw _
  · have hrefuse : Runs g.toStanding (Analysis.refuseDeclared what what.category name) (.ok ()) g.toStanding := by
      refine (Runs.find _ _).bind_ok ?_
      rw [if_neg hsome]
      exact .pure ()
    cases hadd : g.scopes.add (Symbol.ofEntity name what.entity) with
    | error e =>
      refine .refuse (e := .symbol e) (by simp only [run, declareIn, if_neg hsome, hadd]) ?_
      exact hrefuse.bind_ok (.remark_bind (Runs.currentText.bind_ok (.remark_bind
        (Runs.declare_error hadd).bind_error)))
    | ok scopes =>
      refine .quiet_bind hrefuse (.remark_bind (.quiet_bind .currentText (.remark_bind ?_)))
      exact .step_bind (n := { g with scopes := scopes })
        (by simp only [run, declareIn, if_neg hsome, hadd]) (.declare_ok hadd) (hk scopes hadd)

theorem VarDecl.follows (g : Stage) (v : VarDecl) :
    Follows g (v.tree.visit .alone) v.steps fun _ _ => True := by
  obtain ⟨name, value⟩ := v
  rw [tree, Tree.visit_node]
  cases value with
  | none =>
    refine .remark_bind (.quiet_bind (.pure name.text) (.remark_bind (.remark_bind (declare_follows ?_))))
    intro scopes _
    refine .quiet_bind .currentText (.remark_bind (.remark_bind ?_))
    exact .quiet_bind (.find _ _) (.quiet_bind .currentText (.remark_bind (.pure trivial)))
  | some e =>
    simp only [Analysis.visitRule, Analysis.visitVarDecl, valueTrees, List.cons_append, List.nil_append,
      List.map_cons, Analysis.rule?_child, isRule_sign, isRule_name, isRule_expression]
    refine .remark_bind (.quiet_bind (.pure name.text) (.remark_bind (.remark_bind (declare_follows ?_))))
    intro scopes _
    refine .quiet_bind .currentText (.remark_bind (.remark_bind (.bind (.typeOf (e.follows _)) ?_)))
    rintro t g₁ rfl
    refine .step_bind rfl (.modifyScopes _) (.remark_bind ?_)
    exact .quiet_bind (.find _ _) (.quiet_bind .currentText (.remark_bind (.pure trivial)))

theorem exprStmt_follows (g : Stage) (e : Expression) :
    Follows g ((Tree.node .exprStmt [e.tree, sign .semicolon]).visit .alone) e.steps
      fun v t => v = .type t := by
  rw [Tree.visit_node]
  simp only [Analysis.visitRule, Analysis.visitExprStmt, List.map_cons, Analysis.rule?_child, isRule_expression]
  exact .remark_bind (.remark_bind (e.follows g))

theorem ForInit.follows (g : Stage) (head : ForInit) (rest : List Child)
    (hv : Analysis.rule? .varDecl rest = none) (he : Analysis.rule? .exprStmt rest = none) :
    Follows g (Analysis.visitForInit ((sign .forWord).child :: (sign .openParen).child :: head.tree.child :: rest))
      head.steps fun _ _ => True := by
  cases head with
  | «variable» v =>
    simp only [Analysis.visitForInit, tree, Analysis.rule?_child, isRule_sign, isRule_varDecl]
    exact .remark_bind (v.follows g).discard
  | expression e =>
    simp only [Analysis.visitForInit, tree, Analysis.rule?_child, isRule_sign, hv, Tree.isRule_node]
    exact .remark_bind (exprStmt_follows g e).discard
  | nothing =>
    simp only [Analysis.visitForInit, tree, Analysis.rule?_child, isRule_sign, hv, he]
    exact .remark_bind (.pure trivial)

theorem require_follows {β : Type} {g : Stage} {e : Expression} {place : String} {k : Unit → Analysis β}
    {more : List Step} {last : β → Option Ty → Prop} (hk : ∀ g', Follows g' (k ()) more last) :
    Follows g (do
      let t ← Analysis.typeOf e.tree.child
      let v ← Analysis.check (Operand.checkBoolean t place)
      k v) (e.steps ++ require place :: more) last := by
  refine .bind (.typeOf (e.follows g)) ?_
  rintro t g' rfl
  have hrun := Runs.check (g := g'.toStanding) (Operand.checkBoolean g'.type place)
  cases hc : Operand.checkBoolean g'.type place with
  | ok _ =>
    rw [hc] at hrun
    exact .step_bind (n := g') (by simp only [run, hc]; rfl) hrun (hk g')
  | error err =>
    rw [hc] at hrun
    exact .refuse (by simp only [run, hc]; rfl) hrun.bind_error

theorem headSteps_follows (g : Stage) (es : List Expression) :
    Follows g (Analysis.visitForHead (es.map fun e => e.tree.child)) (headSteps es) fun _ _ => True := by
  match es with
  | [] => exact .remark_bind (.remark_bind (.pure trivial))
  | [c] =>
    exact .remark_bind (require_follows fun g' => .remark_bind (.pure trivial))
  | c :: u :: _ =>
    exact .remark_bind (require_follows fun g' => .remark_bind (u.follows g').discard)

theorem ForHead.follows {β : Type} {g : Stage} {head : ForHead} {body : Statement} {k : Unit → Analysis β}
    {more : List Step} {last : β → Option Ty → Prop} (hk : ∀ g', Follows g' (k ()) more last) :
    Follows g (do
      Analysis.visitForInit ((head.trees ++ [body.tree]).map Tree.child)
      let v ← Analysis.visitForHead
        (Analysis.ofRule .expression ((head.trees ++ [body.tree]).map Tree.child))
      k v) (head.steps ++ more) last := by
  obtain ⟨init, condition, update⟩ := head
  rw [steps, List.append_assoc]
  refine .bind (init.follows g _ ?_ ?_) ?_
  · cases condition <;> cases update <;> simp [Expression.trees]
  · cases condition <;> cases update <;> simp [Expression.trees]
  · intro _ g' _
    have hrule : init.tree.isRule .expression = false := by
      cases init <;> rfl
    have hparts : Analysis.ofRule .expression
        (((⟨init, condition, update⟩ : ForHead).trees ++ [body.tree]).map Tree.child) =
        (condition.toList ++ update.toList).map fun e => e.tree.child := by
      cases condition <;> cases update <;> simp [trees, Expression.trees, hrule]
    rw [hparts]
    exact (headSteps_follows g' _).bind fun _ g₁ _ => hk g₁

theorem declareParams_follows (g : Stage) (names : List Name) :
    Follows g ((names.map Name.text).mapM Analysis.declareParam)
      (names.map fun x => declare .parameter x.text) fun keys _ => keys = names.map Name.text := by
  induction names generalizing g with
  | nil => exact .pure rfl
  | cons x names ih =>
    have hone : Follows g (Analysis.declareParam x.text) [declare .parameter x.text] fun key _ => key = x.text := by
      refine .remark_bind (.remark_bind (declare_follows fun scopes _ => ?_))
      exact .quiet_bind .currentText (.remark_bind (.pure rfl))
    rw [List.map_cons, List.mapM_cons]
    refine hone.bind fun key g' hkey => (ih g').then_pure fun keys _ hkeys => ?_
    rw [hkey, hkeys]

theorem textsOf_params (ps : Params) :
    Analysis.textsOf .identifier ((ps.first.tree :: Params.restTrees ps.rest).map Tree.child) =
      ps.names.map Name.text := by
  obtain ⟨x, rest⟩ := ps
  have hrest : Analysis.textsOf .identifier ((Params.restTrees rest).map Tree.child) = rest.map Name.text := by
    induction rest with
    | nil => rfl
    | cons y rest ih => simp [Params.restTrees, ih]
  simp [Params.names, hrest]

theorem Params.follows (g : Stage) (ps : Params) :
    Follows g (ps.tree.visit .alone) (ps.names.map fun x => declare .parameter x.text)
      fun v _ => v = .params (ps.names.map Name.text) := by
  rw [tree, Tree.visit_node]
  simp only [Analysis.visitRule, Analysis.visitParameters, textsOf_params]
  refine .remark_bind ((declareParams_follows g ps.names).then_pure ?_)
  rintro keys _ rfl
  rfl

end Syntax

end CompiScript
