import CompiScript.Proofs.Simulation.Statements

namespace CompiScript

open Syntax

namespace Syntax

open Step

theorem functionBody_follows {ds : List Declaration} (hds : ∀ d ∈ ds, d.Followed) {g : Stage} {n : Nat} {x : String}
    (hf : g.scopes.Owns ⟨n, x⟩) :
    Follows g (do
      Analysis.remark "Visiting block in function"
      discard ((Tree.node .block (sign .openBrace :: Declaration.trees ds ++ [sign .closeBrace])).visit
        (.inside (some ("Function " ++ x ++ " Body")) (some ⟨n, x⟩)))
      let symbol ← Analysis.symbolOf ⟨n, x⟩
      Analysis.remark ("Function '" ++ x ++ "' declared with return type '"
        ++ Ty.show? (symbol.bind Symbol.returns?) ++ "' and parameters '"
        ++ (← Analysis.paramsShown symbol) ++ "' in " ++ (← Analysis.currentText))
      Analysis.remark ("Exited function scope '" ++ x ++ "'")
      Analysis.exit
      modify fun s => { s with inReturn := false }
      return Value.nothing)
      (enter ("Function " ++ x ++ " Body") :: (Declaration.stepsAll (some x) ds ++ [exit, exit, unbind]))
      fun _ _ => True := by
  have hknows : g.Knows (.inside (some ("Function " ++ x ++ " Body")) (some ⟨n, x⟩)) := fun r hr => by
    cases hr
    exact hf
  have hsplit : ∀ steps : List Step, enter ("Function " ++ x ++ " Body") :: (steps ++ [exit, exit, unbind]) =
      (enter ("Function " ++ x ++ " Body") :: steps ++ [exit]) ++ [exit, unbind] := fun steps => by simp
  rw [hsplit]
  refine .remark_bind (.bind (block_follows hds hknows).discard fun _ g₁ _ => ?_)
  refine .quiet_bind (.symbolOf _) (.quiet_bind (.paramsShown _) (.quiet_bind .currentText ?_))
  refine .remark_bind (.remark_bind (.step_bind rfl (.modifyScopes _) ?_))
  exact .step_bind rfl (.modify (fun g => { g with inReturn := false }) fun _ => rfl) (.pure trivial)

section Function

variable {ds : List Declaration} {name : Name}

def functionTrees (name : Name) (params : Option Params) (ds : List Declaration) : List Tree :=
  [name.tree, sign .openParen] ++ Params.trees params ++ [sign .closeParen,
    .node .block (sign .openBrace :: Declaration.trees ds ++ [sign .closeBrace])]

theorem textOf?_function (params : Option Params) :
    Analysis.textOf? .identifier ((functionTrees name params ds).map Tree.child) = some name.text := by
  simp [functionTrees, Analysis.textOf?]

theorem rule?_parameters (params : Option Params) :
    Analysis.rule? .parameters ((functionTrees name params ds).map Tree.child) =
      params.map fun ps => ps.tree.child := by
  cases params <;> simp [functionTrees, Params.trees, Params.tree]

theorem rule?_block (params : Option Params) :
    Analysis.rule? .block ((functionTrees name params ds).map Tree.child) =
      some (Tree.node .block (sign .openBrace :: Declaration.trees ds ++ [sign .closeBrace])).child := by
  cases params <;> simp [functionTrees, Params.trees, Params.tree]

theorem function_follows (hds : ∀ d ∈ ds, d.Followed) (g : Stage) (params : Option Params) :
    Follows g ((Tree.node .function (functionTrees name params ds)).visit .alone)
      ((Declaration.function name params ds).steps none) fun _ _ => True := by
  rw [Tree.visit_node]
  simp only [Analysis.visitRule, Analysis.visitFunction, textOf?_function, rule?_parameters, rule?_block,
    Declaration.steps, List.cons_append, List.append_assoc]
  refine .remark_bind (.quiet_bind (.pure name.text) (.remark_bind (.remark_bind (declare_follows ?_))))
  intro scopes hadd
  obtain ⟨-, -, rfl⟩ := Scopes.add_ok hadd
  have hf := g.scopes.owns_reference name.text
  refine .remark_bind (.step_bind rfl (.modifyScopes _) ?_)
  simp only [Scopes.reference] at hf ⊢
  cases params with
  | none => exact .remark_bind (functionBody_follows hds (Scopes.owns_enter.mpr hf))
  | some ps =>
    simp only [Params.steps, List.append_assoc]
    refine .remark_bind (.bind_run (ps.follows _) ?_)
    rintro _ g₂ hrun rfl
    -- The variables of the parameters are new, so the function is still found by its name.
    have hf₂ := (hrun.continues (ps.tree.visit_accord (Standing.knows_alone _))).owns _ (Scopes.owns_enter.mpr hf)
    have hset := hf₂.changeAt fun symbol => symbol.setParams (ps.names.map Name.text)
    have hbound := (Scopes.owns_congr (g₂.scopes.setParams_sketch name.text (ps.names.map Name.text))).mpr hf₂
    rw [← bind_assoc]
    refine .step_bind (v := ()) (n := { g₂ with
      scopes := g₂.scopes.setParams name.text (ps.names.map Name.text), inReturn := true }) rfl ?_ ?_
    · refine (Runs.modifyScopes _).bind_ok ?_
      rw [Value.keys, hset]
      exact .modify (fun g => { g with inReturn := true }) fun _ => rfl
    · refine .quiet_bind (.updateSymbol hbound) (.quiet_bind (.symbolOf _) (.quiet_bind (.paramsShown _) ?_))
      exact .remark_bind (functionBody_follows hds hbound)

end Function

theorem Declaration.function_followed {ds : List Declaration} (hds : ∀ d ∈ ds, d.Followed) (name : Name)
    (params : Option Params) : (function name params ds).Followed := by
  intro g manner _
  have hfunction : Follows g ((Tree.node .funDecl [sign .funWord,
      .node .function (functionTrees name params ds)]).visit .alone)
      ((function name params ds).steps (manner.function.map Reference.name)) fun _ _ => True := by
    rw [Tree.visit_node]
    exact .remark_bind (.remark_bind ((function_follows hds g params).discard.then_pure fun _ _ _ => trivial))
  rw [tree, Tree.visit_node]
  exact .remark_bind (.remark_bind (hfunction.discard.then_pure fun _ _ _ => trivial))

theorem Declaration.statement_followed {s : Statement} (hs : s.Followed) : (statement s).Followed := by
  intro g manner hm
  rw [tree, Tree.visit_node]
  simp only [Analysis.visitRule, Analysis.visitDeclaration, List.map_cons, List.map_nil, Analysis.rule?_child,
    isRule_statement, steps]
  exact .remark_bind (.remark_bind (hs g (.inside none manner.function) hm))

theorem Declaration.variable_followed (v : VarDecl) : (Declaration.variable v).Followed := by
  intro g manner _
  rw [tree, Tree.visit_node]
  exact .remark_bind (.remark_bind ((v.follows g).discard.then_pure fun _ _ _ => trivial))

theorem Declaration.classType_followed (parts : List Tree) : (classType parts).Followed := by
  intro g manner _
  rw [tree, Tree.visit_node]
  exact .remark_bind (.pure trivial)

mutual

theorem Statement.followed : ∀ s : Statement, s.Followed
  | .expression e => Statement.expression_followed e
  | .forLoop _ body => Statement.forLoop_followed body.followed
  | .ifThen _ yes => Statement.ifThen_followed yes.followed
  | .ifElse _ yes no => Statement.ifElse_followed yes.followed no.followed
  | .print e => Statement.print_followed e
  | .giveBack value => Statement.giveBack_followed value
  | .whileLoop _ body => Statement.whileLoop_followed body.followed
  | .block body => Statement.block_followed (Declaration.followed_mem body)

theorem Declaration.followed : ∀ d : Declaration, d.Followed
  | .classType parts => Declaration.classType_followed parts
  | .function name params body => Declaration.function_followed (Declaration.followed_mem body) name params
  | .variable v => Declaration.variable_followed v
  | .statement s => Declaration.statement_followed s.followed

theorem Declaration.followed_mem : ∀ ds : List Declaration, ∀ d ∈ ds, d.Followed
  | [], _, h => by cases h
  | d :: ds, e, h => by
    cases h with
    | head => exact d.followed
    | tail _ h => exact Declaration.followed_mem ds e h

end

theorem visitAll_follows (ds : List Declaration) (g : Stage) (last : Value) :
    Follows g (Analysis.visitAll last ((Declaration.trees ds ++ [Tree.leaf .eof]).map Tree.child))
      (Declaration.stepsAll none ds) fun _ _ => True := by
  induction ds generalizing g last with
  | nil => exact .quiet_bind (.pure _) (.pure trivial)
  | cons d ds ih =>
    rw [Declaration.stepsAll]
    exact .bind (d.followed g .alone g.knows_alone) fun v g' _ => ih g' v

theorem Program.follows (p : Program) (g : Stage) :
    Follows g (p.tree.visit .alone) p.steps fun _ _ => True := by
  rw [tree, Tree.visit_node]
  exact .remark_bind (visitAll_follows p.body g .nothing)

end Syntax

def AnalysisState.outcome (s : AnalysisState) (t : Tree) : Option AnalysisError × Standing :=
  match s.analyse t with
  | (.ok _, s') => (none, s'.standing)
  | (.error e, s') => (some e, s'.standing)

theorem outcome_of_follows {s : AnalysisState} {t : Tree} {steps : List Step} {post : Value → Option Ty → Prop}
    (h : Follows ⟨s.standing, none⟩ (t.visit .alone) steps post) :
    s.outcome t = ((execute steps ⟨s.standing, none⟩).1, (execute steps ⟨s.standing, none⟩).2.toStanding) := by
  simp only [AnalysisState.outcome, AnalysisState.analyse]
  cases he : execute steps ⟨s.standing, none⟩ with
  | mk r g' =>
    cases r with
    | none =>
      obtain ⟨v, hv, -⟩ := h.ok g' he
      obtain ⟨s', hs, hg⟩ := hv s rfl
      simp only [hs, hg]
    | some e =>
      obtain ⟨s', hs, hg⟩ := h.error e g' he s rfl
      simp only [hs, hg]

theorem outcome_program (s : AnalysisState) (p : Program) :
    s.outcome p.tree =
      ((execute p.steps ⟨s.standing, none⟩).1, (execute p.steps ⟨s.standing, none⟩).2.toStanding) :=
  outcome_of_follows (p.follows ⟨s.standing, none⟩)

theorem analyse_standing (s : AnalysisState) (p : Program) :
    (s.analyse p.tree).2.standing = (execute p.steps ⟨s.standing, none⟩).2.toStanding := by
  have hleft : (s.analyse p.tree).2.standing = (s.outcome p.tree).2 := by
    rw [AnalysisState.outcome]
    rcases s.analyse p.tree with ⟨_ | _, s'⟩ <;> rfl
  rw [hleft, outcome_program]

theorem execute_of_analyse {p : Program} {v : Value} {s : AnalysisState}
    (h : AnalysisState.start.analyse p.tree = (.ok v, s)) :
    ∃ g, execute p.steps .start = (none, g) ∧ s.standing = g.toStanding := by
  have houtcome := outcome_program .start p
  rw [AnalysisState.outcome, h] at houtcome
  obtain ⟨hnone, hstanding⟩ := Prod.mk.injEq .. ▸ houtcome
  exact ⟨(execute p.steps .start).2, Prod.ext hnone.symm rfl, hstanding⟩

end CompiScript
