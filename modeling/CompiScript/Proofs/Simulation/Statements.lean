import CompiScript.Proofs.Simulation.Expressions

namespace CompiScript

open Syntax

namespace Syntax

open Step

def Statement.Followed (s : Statement) : Prop :=
  ∀ (g : Stage) (manner : Manner), g.Knows manner →
    Follows g (s.tree.visit manner) (s.steps manner.scope (manner.function.map Reference.name)) fun _ _ => True

def Declaration.Followed (d : Declaration) : Prop :=
  ∀ (g : Stage) (manner : Manner), g.Knows manner →
    Follows g (d.tree.visit manner) (d.steps (manner.function.map Reference.name)) fun _ _ => True

def formManner (manner : Manner) : Rule → Manner
  | .returnStmt => .inside none manner.function
  | .block => .inside manner.scope none
  | _ => .alone

theorem statement_follows {g : Stage} {manner : Manner} {r : Rule} {cs : List Tree} {steps : List Step}
    {post : Value → Option Ty → Prop} (hr : r ∈ Analysis.statementForms.map Prod.fst)
    (h : Follows g ((Tree.node r cs).visit (formManner manner r)) steps post) :
    Follows g ((Tree.node .statement [.node r cs]).visit manner) steps post := by
  rw [Tree.visit_node]
  simp only [Analysis.statementForms, List.map_cons, List.map_nil, List.mem_cons, List.not_mem_nil, or_false] at hr
  rcases hr with rfl | rfl | rfl | rfl | rfl | rfl | rfl <;> exact .remark_bind (.remark_bind h)

theorem forStmt_follows {head : ForHead} {body : Statement} (hbody : body.Followed) (g : Stage)
    (scope owner : Option String) :
    Follows g ((Tree.node .forStmt (head.trees ++ [body.tree])).visit .alone)
      ((Statement.forLoop head body).steps scope owner) fun _ _ => True := by
  have hpart : Analysis.rule? .statement ((head.trees ++ [body.tree]).map Tree.child) = some body.tree.child := by
    obtain ⟨init, condition, update⟩ := head
    cases init <;> cases condition <;> cases update <;>
      simp [ForHead.trees, ForInit.tree, Expression.trees, VarDecl.tree]
  rw [Tree.visit_node]
  simp only [Analysis.visitRule, Analysis.visitForStmt, hpart, Statement.steps, List.cons_append, List.append_assoc]
  refine .remark_bind (.remark_bind (.step_bind rfl (.modifyScopes _) (ForHead.follows fun g₁ => ?_)))
  refine .remark_bind (.step_bind rfl (.modifyScopes _) (.bind (hbody _ .alone (Standing.knows_alone _)).discard ?_))
  intro _ g₂ _
  exact .step_bind rfl (.modifyScopes _) (.remark_bind (.step_bind rfl (.modifyScopes _) (.pure trivial)))

theorem Statement.forLoop_followed {head : ForHead} {body : Statement} (hbody : body.Followed) :
    (forLoop head body).Followed := by
  intro g manner _
  rw [tree]
  exact statement_follows (by decide) (forStmt_follows hbody g _ _)

theorem Statement.ifThen_followed {condition : Expression} {yes : Statement} (hyes : yes.Followed) :
    (ifThen condition yes).Followed := by
  intro g manner _
  rw [tree]
  refine statement_follows (by decide) ?_
  rw [Tree.visit_node]
  simp only [Analysis.visitRule, Analysis.visitIfStmt, List.map_cons, List.map_nil, Analysis.rule?_child,
    Analysis.ofRule_child, isRule_sign, isRule_expression, isRule_statement, steps]
  refine .remark_bind (.remark_bind (require_follows fun g₁ => .remark_bind ?_))
  rw [← List.append_nil (yes.steps _ _)]
  refine .bind (hyes g₁ _ (g₁.knows_none (some "If Block"))).discard ?_
  intro _ g₂ _
  exact .remark_bind (.pure trivial)

theorem Statement.ifElse_followed {condition : Expression} {yes no : Statement} (hyes : yes.Followed)
    (hno : no.Followed) : (ifElse condition yes no).Followed := by
  intro g manner _
  rw [tree]
  refine statement_follows (by decide) ?_
  rw [Tree.visit_node]
  simp only [Analysis.visitRule, Analysis.visitIfStmt, List.map_cons, List.map_nil, Analysis.rule?_child,
    Analysis.ofRule_child, isRule_sign, isRule_expression, isRule_statement, steps, List.append_assoc,
    List.cons_append]
  refine .remark_bind (.remark_bind (require_follows fun g₁ => .remark_bind ?_))
  refine .bind (hyes g₁ _ (g₁.knows_none (some "If Block"))).discard ?_
  intro _ g₂ _
  exact .remark_bind ((hno g₂ _ (g₂.knows_none (some "Else Block"))).discard.then_pure fun _ _ _ => trivial)

theorem Statement.print_followed (e : Expression) : (print e).Followed := by
  intro g manner _
  rw [tree]
  refine statement_follows (by decide) ?_
  rw [Tree.visit_node]
  simp only [Analysis.visitRule, Analysis.visitPrintStmt, List.map_cons, List.map_nil, Analysis.rule?_child,
    isRule_sign, isRule_expression, steps]
  refine .remark_bind (.step_bind rfl (.modify (fun g => { g with inPrint := true }) fun _ => rfl) ?_)
  refine .bind (e.follows _).discard fun _ g₁ _ => ?_
  exact .step_bind rfl (.modify (fun g => { g with inPrint := false }) fun _ => rfl) (.pure trivial)

theorem Statement.whileLoop_followed {condition : Expression} {body : Statement} (hbody : body.Followed) :
    (whileLoop condition body).Followed := by
  intro g manner _
  rw [tree]
  refine statement_follows (by decide) ?_
  rw [Tree.visit_node]
  simp only [Analysis.visitRule, Analysis.visitWhileStmt, List.map_cons, List.map_nil, Analysis.rule?_child,
    isRule_sign, isRule_expression, isRule_statement, steps]
  refine .remark_bind (.remark_bind (require_follows fun g₁ => .remark_bind ?_))
  exact (hbody g₁ _ (g₁.knows_none (some "While Loop"))).discard.then_pure fun _ _ _ => trivial

theorem inferReturn_follows {g : Stage} {function : Option Reference} (hf : ∀ r, function = some r → g.scopes.Owns r)
    (hreturn : g.inReturn = false) :
    Follows g (Analysis.inferReturn Analysis.updateSymbol function g.type)
      [giveBack (function.map Reference.name) false] fun _ _ => True := by
  cases function with
  | none => exact .refuse (by simp [run, hreturn, returnIn]) (.throw _)
  | some f =>
    have howns := hf f rfl
    refine .quiet_bind (.symbolOf f) ?_
    rw [← howns.find?]
    by_cases hnil : (g.scopes.find? f.name (some .functions)).bind Symbol.returns? = some Ty.nil
    · simp only [if_pos hnil]
      have hset : g.scopes.changeAt f (fun symbol => symbol.setReturns g.type) = g.scopes.setReturns f.name g.type :=
        howns.changeAt _
      have hupdated : (g.scopes.setReturns f.name g.type).Owns f :=
        (Scopes.owns_congr (g.scopes.setReturns_sketch f.name g.type)).mpr howns
      refine .step_ok (n := { g with scopes := g.scopes.setReturns f.name g.type }) (v := ()) ?_
        ((Runs.modifyScopes _).bind_ok ?_) trivial
      · simp [run, hreturn, returnIn, hnil]
      · rw [hset]
        exact (Runs.updateSymbol hupdated).bind_ok (.remark _)
    · simp only [if_neg hnil]
      by_cases hne : Ty.show? ((g.scopes.find? f.name (some .functions)).bind Symbol.returns?) ≠ Ty.show? g.type
      · rw [if_pos hne]
        refine .refuse ?_ (.throw _)
        simp [run, hreturn, returnIn, hnil, hne]
      · rw [if_neg hne]
        refine .step_ok (n := g) ?_ (.pure ()) trivial
        simp [run, hreturn, returnIn, hnil, hne]

theorem Statement.giveBack_followed (value : Option Expression) : (giveBack value).Followed := by
  intro g manner hm
  have hfunction : (formManner manner .returnStmt).function = manner.function := rfl
  rw [tree]
  refine statement_follows (by decide) ?_
  rw [Tree.visit_node]
  cases value with
  | none =>
    simp only [Analysis.visitRule, Analysis.visitReturnStmt, Expression.trees, List.append_nil, List.cons_append,
      List.nil_append, List.map_cons, List.map_nil, Analysis.rule?_child, Analysis.rule?_nil, isRule_sign, steps,
      returnSteps, hfunction]
    refine .remark_bind (.remark_bind ?_)
    cases hf : manner.function with
    | none => exact .refuse (e := .absent "name") rfl (Runs.throw _).bind_error
    | some f => exact .skip (n := g) rfl rfl (.quiet_bind (.updateSymbol (hm f hf)) (.pure trivial))
  | some e =>
    simp only [Analysis.visitRule, Analysis.visitReturnStmt, Expression.trees, List.cons_append,
      List.nil_append, List.map_cons, List.map_nil, Analysis.rule?_child, isRule_sign, isRule_expression,
      steps, returnSteps]
    refine .remark_bind (.remark_bind (.bind_run (.typeOf (e.follows g)) ?_))
    rintro t g₁ hrun rfl
    have hm₁ : ∀ r, manner.function = some r → g₁.scopes.Owns r :=
      fun r hr => (hrun.continues (Accord.ordinary.typeOf (e.tree.visit_accord g.knows_alone))).owns r (hm r hr)
    -- Which branch is taken hangs on the standing alone, though the whole state is read.
    cases hreturn : g₁.inReturn with
    | true =>
      refine .get_bind (b := do
        Analysis.remark "Postponing return type validation due to parameter dependency"
        return .nothing) ?_ ?_
      · intro s hs
        have : s.inReturn = true := hreturn ▸ congrArg Standing.inReturn hs
        simp only [this, if_true]
      · exact .remark_bind (.skip (n := g₁) (by simp only [run, hreturn, if_true]) rfl (.pure trivial))
    | false =>
      refine .get_bind (b := do
        Analysis.inferReturn Analysis.updateSymbol manner.function g₁.type
        return .nothing) ?_ ?_
      · intro s hs
        have : s.inReturn = false := hreturn ▸ congrArg Standing.inReturn hs
        simp only [this, hfunction]
        rfl
      · exact (inferReturn_follows hm₁ hreturn).then_pure fun _ _ _ => trivial

theorem Statement.expression_followed (e : Expression) : (expression e).Followed := by
  intro g manner _
  rw [tree]
  exact statement_follows (by decide) ((exprStmt_follows g e).mono fun _ _ _ => trivial)

theorem ofRule_declarations (ds : List Declaration) :
    Analysis.ofRule .declaration ((sign .openBrace :: Declaration.trees ds ++ [sign .closeBrace]).map Tree.child) =
      ds.map fun d => d.tree.child := by
  have hall : ∀ cs : List Child, Analysis.ofRule .declaration ((Declaration.trees ds).map Tree.child ++ cs) =
      (ds.map fun d => d.tree.child) ++ Analysis.ofRule .declaration cs := by
    intro cs
    induction ds with
    | nil => rfl
    | cons d ds ih => simp [Declaration.trees, ih]
  simp [hall]

theorem visitDeclarations_follows {ds : List Declaration} (hds : ∀ d ∈ ds, d.Followed) {g : Stage}
    {function : Option Reference} (hf : g.Knows (.inside none function)) (i : Nat) :
    Follows g (Analysis.visitDeclarations function i (ds.map fun d => d.tree.child))
      (Declaration.stepsAll (function.map Reference.name) ds) fun _ _ => True := by
  induction ds generalizing g i with
  | nil => exact .pure trivial
  | cons d ds ih =>
    rw [Declaration.stepsAll]
    refine .remark_bind (.bind_run (hds d (.head ds) g _ hf).discard fun _ g₁ hrun _ => ?_)
    have hcontinues := hrun.continues (Accord.ordinary.discard (d.tree.visit_accord hf))
    exact ih (fun e he => hds e (.tail d he)) (fun r hr => hcontinues.owns r (hf r hr)) (i + 1)

theorem block_follows {ds : List Declaration} (hds : ∀ d ∈ ds, d.Followed) {g : Stage} {scope : Option String}
    {function : Option Reference} (hf : g.Knows (.inside scope function)) :
    Follows g ((Tree.node .block (sign .openBrace :: Declaration.trees ds ++ [sign .closeBrace])).visit
        (.inside scope function))
      (enter (scope.getD "Block Scope") :: Declaration.stepsAll (function.map Reference.name) ds ++ [exit])
      fun _ _ => True := by
  rw [Tree.visit_node]
  simp only [Analysis.visitRule, Analysis.visitBlock, ofRule_declarations]
  have hbody : ∀ name, Follows { g with scopes := g.scopes.enter name } (do
      Analysis.remark "Visiting block statements"
      Analysis.visitDeclarations function 0 (ds.map fun d => d.tree.child)
      Analysis.remark "Exited block scope"
      Analysis.exit
      return Value.nothing) (Declaration.stepsAll (function.map Reference.name) ds ++ [exit]) fun _ _ => True := by
    intro name
    have hinner : ({ g with scopes := g.scopes.enter name } : Stage).Knows (.inside none function) :=
      fun r hr => Scopes.owns_enter.mpr (hf r hr)
    refine .remark_bind (.bind (visitDeclarations_follows hds hinner 0) fun _ g₁ _ => .remark_bind ?_)
    exact .step_bind rfl (.modifyScopes _) (.pure trivial)
  cases scope with
  | none => exact .remark_bind (.remark_bind (.step_bind rfl (.modifyScopes _) (hbody _)))
  | some name => exact .remark_bind (.remark_bind (.step_bind rfl (.modifyScopes _) (hbody _)))

theorem Statement.block_followed {ds : List Declaration} (hds : ∀ d ∈ ds, d.Followed) :
    (block ds).Followed := by
  intro g manner _
  rw [tree]
  exact statement_follows (by decide) (block_follows hds (g.knows_none manner.scope))

end Syntax

end CompiScript
