import CompiScript.Proofs.Dependence.Flag

namespace CompiScript

open Syntax Step

section Congruence

variable {α : Type}

theorem Runs.unique {g g₁ g₂ : Standing} {a : Analysis α} {r₁ r₂ : Except AnalysisError α} (h₁ : Runs g a r₁ g₁)
    (h₂ : Runs g a r₂ g₂) : r₁ = r₂ ∧ g₁ = g₂ := by
  obtain ⟨s₁, hrun₁, hs₁⟩ := h₁ ⟨g.scopes, g.inPrint, g.inReturn, AnalysisState.start.log⟩ rfl
  obtain ⟨s₂, hrun₂, hs₂⟩ := h₂ ⟨g.scopes, g.inPrint, g.inReturn, AnalysisState.start.log⟩ rfl
  obtain ⟨hr, hs⟩ := Prod.mk.inj (hrun₁.symm.trans hrun₂)
  refine ⟨hr, ?_⟩
  rw [← hs₁, ← hs₂, hs]

def failure? (r : Except AnalysisError α) : Option AnalysisError :=
  match r with
  | .ok _ => none
  | .error e => some e

theorem Follows.exists_runs {g : Stage} {a : Analysis α} {steps : List Step} {post : α → Option Ty → Prop}
    (h : Follows g a steps post) :
    ∃ r, Runs g.toStanding a r (execute steps g).2.toStanding ∧ failure? r = (execute steps g).1 := by
  match hrun : execute steps g with
  | (none, g') =>
    obtain ⟨v, hv, -⟩ := h.ok g' hrun
    exact ⟨.ok v, hv, rfl⟩
  | (some e, g') => exact ⟨.error e, h.error e g' hrun, rfl⟩

theorem Follows.execute_congr {g g' : Stage} {a : Analysis α} {steps : List Step} {post post' : α → Option Ty → Prop}
    (h : Follows g a steps post) (h' : Follows g' a steps post') (hg : g.toStanding = g'.toStanding) :
    (execute steps g).1 = (execute steps g').1 ∧
      (execute steps g).2.toStanding = (execute steps g').2.toStanding := by
  obtain ⟨r, hruns, hr⟩ := h.exists_runs
  obtain ⟨r', hruns', hr'⟩ := h'.exists_runs
  rw [← hg] at hruns'
  obtain ⟨rfl, hstanding⟩ := hruns.unique hruns'
  exact ⟨hr.symm.trans hr', hstanding⟩

end Congruence

theorem Syntax.Program.execute_congr (p : Program) {g g' : Stage} (hg : g.toStanding = g'.toStanding) :
    (execute p.steps g).1 = (execute p.steps g').1 ∧
      (execute p.steps g).2.toStanding = (execute p.steps g').2.toStanding :=
  (p.follows g).execute_congr (p.follows g') hg

namespace Step

def print (b : Bool) : Step → Bool
  | beginPrint => true
  | endPrint => false
  | _ => b

end Step

theorem execute_inPrint {steps : List Step} {g g' : Stage} (h : execute steps g = (none, g')) :
    g'.inPrint = steps.foldl Step.print g.inPrint := by
  induction steps generalizing g with
  | nil =>
    cases h
    rfl
  | cons s steps ih =>
    obtain ⟨g₁, hs, hrest⟩ := execute_cons_ok h
    have hprint : g₁.inPrint = s.print g.inPrint := by
      cases run_takes hs <;> rfl
    rw [ih hrest, hprint, List.foldl_cons]

def Silent (steps : List Step) : Prop :=
  steps.foldl Step.print false = false

section Silent

variable {s : Step} {before after : List Step}

theorem silent_nil : Silent [] :=
  rfl

theorem Silent.append (hbefore : Silent before) (hafter : Silent after) : Silent (before ++ after) := by
  rw [Silent, List.foldl_append, hbefore]
  exact hafter

theorem Silent.cons (hs : s.print false = false) (h : Silent after) : Silent (s :: after) := by
  rw [Silent, List.foldl_cons, hs]
  exact h

theorem silent_of_forall {steps : List Step} (h : ∀ s ∈ steps, s.print false = false) : Silent steps := by
  induction steps with
  | nil => exact silent_nil
  | cons s steps ih =>
    obtain ⟨hs, hsteps⟩ := List.forall_mem_cons.mp h
    exact (ih hsteps).cons hs

end Silent

namespace Syntax

theorem Expression.silent (e : Expression) : Silent e.steps := by
  apply silent_of_forall
  intro s hs
  have hoperation := e.isOperation_of_mem hs
  cases s <;> first | rfl | cases hoperation

theorem Expression.silent_condition (e : Expression) (place : String) {after : List Step} (h : Silent after) :
    Silent (e.steps ++ require place :: after) :=
  e.silent.append (h.cons rfl)

theorem VarDecl.silent (v : VarDecl) : Silent v.steps := by
  obtain ⟨name, value⟩ := v
  cases value with
  | none => exact silent_nil.cons rfl
  | some e => exact (e.silent.cons rfl).append (silent_nil.cons rfl)

theorem headSteps_silent (es : List Expression) : Silent (headSteps es) := by
  match es with
  | [] => exact silent_nil
  | [c] => exact c.silent_condition _ silent_nil
  | c :: u :: _ => exact c.silent_condition _ u.silent

theorem ForHead.silent (h : ForHead) : Silent h.steps := by
  obtain ⟨init, condition, update⟩ := h
  refine Silent.append ?_ (headSteps_silent _)
  cases init with
  | «variable» v => exact v.silent
  | expression e => exact e.silent
  | nothing => exact silent_nil

theorem Params.silent (f : String) (params : Option Params) : Silent (Params.steps f params) := by
  apply silent_of_forall
  intro s hs
  cases params with
  | none => cases hs
  | some ps =>
    rcases List.mem_append.mp hs with hname | hbind
    · obtain ⟨x, -, rfl⟩ := List.mem_map.mp hname
      rfl
    · rw [List.mem_singleton.mp hbind]
      rfl

mutual

theorem Statement.silent (scope owner : Option String) : ∀ s : Statement, Silent (s.steps scope owner)
  | .expression e => e.silent
  | .forLoop head body =>
    ((head.silent.cons rfl).append ((body.silent none none).cons rfl)).append ((silent_nil.cons rfl).cons rfl)
  | .ifThen condition yes => condition.silent_condition _ (yes.silent _ none)
  | .ifElse condition yes no => (condition.silent_condition _ (yes.silent _ none)).append (no.silent _ none)
  | .print e => by
    rw [Silent, Statement.steps, List.foldl_append]
    rfl
  | .giveBack none => silent_nil.cons rfl
  | .giveBack (some e) => e.silent.append (silent_nil.cons rfl)
  | .whileLoop condition body => condition.silent_condition _ (body.silent _ none)
  | .block body => ((Declaration.silentAll none body).cons rfl).append (silent_nil.cons rfl)

theorem Declaration.silent (owner : Option String) : ∀ d : Declaration, Silent (d.steps owner)
  | .classType _ => silent_nil
  | .function name params body => by
    have hparams := Params.silent name.text params
    have hbody := Declaration.silentAll (some name.text) body
    have hends : Silent [exit, exit, unbind] := rfl
    rw [Declaration.steps]
    exact (((hparams.cons rfl).cons rfl).append (hbody.cons rfl)).append hends
  | .variable v => v.silent
  | .statement s => s.silent none owner

theorem Declaration.silentAll (owner : Option String) : ∀ ds : List Declaration,
    Silent (Declaration.stepsAll owner ds)
  | [] => silent_nil
  | d :: ds => (d.silent owner).append (Declaration.silentAll owner ds)

end

theorem Program.execute_flags (p : Program) {g g' : Stage} (h : execute p.steps g = (none, g'))
    (hprint : g.inPrint = false) (hreturn : g.inReturn = false) : g'.inPrint = false ∧ g'.inReturn = false := by
  constructor
  · rw [execute_inPrint h, hprint]
    exact Declaration.silentAll none p.body
  · rw [execute_inReturn h, hreturn]
    exact Declaration.flagAfter_stepsAll none false p.body

def Program.join (p q : Program) : Program :=
  ⟨p.body ++ q.body⟩

theorem Program.steps_join (p q : Program) : (p.join q).steps = p.steps ++ q.steps :=
  Declaration.stepsAll_append none p.body q.body

end Syntax

def Tree.joined (t u : Tree) : Tree :=
  .node .program (t.children.dropLast ++ u.children)

theorem Syntax.Program.tree_join (p q : Program) : (p.join q).tree = p.tree.joined q.tree := by
  have htrees : ∀ ds es : List Declaration,
      Declaration.trees (ds ++ es) = Declaration.trees ds ++ Declaration.trees es := by
    intro ds es
    induction ds with
    | nil => rfl
    | cons d ds ih => rw [List.cons_append, Declaration.trees, Declaration.trees, ih, List.cons_append]
  simp only [tree, join, Tree.joined, Tree.children, htrees, List.dropLast_concat, List.append_assoc]

theorem outcome_of_analyse_ok {s s' : AnalysisState} {t : Tree} {v : Value} (h : s.analyse t = (.ok v, s')) :
    s.outcome t = (none, s'.standing) := by
  rw [AnalysisState.outcome, h]

theorem outcome_of_analyse_error {s s' : AnalysisState} {t : Tree} {e : AnalysisError}
    (h : s.analyse t = (.error e, s')) : s.outcome t = (some e, s'.standing) := by
  rw [AnalysisState.outcome, h]

theorem execute_of_outcome {s : AnalysisState} {p : Program} {r : Option AnalysisError} {g : Standing}
    (h : s.outcome p.tree = (r, g)) : ∃ g', execute p.steps ⟨s.standing, none⟩ = (r, g') ∧ g'.toStanding = g := by
  rw [outcome_program] at h
  obtain ⟨hr, hg⟩ := Prod.mk.inj h
  exact ⟨_, Prod.ext hr rfl, hg⟩

theorem outcome_join_ok {s s' : AnalysisState} {p : Program} (q : Program)
    (h : s.outcome p.tree = (none, s'.standing)) : s.outcome (p.join q).tree = s'.outcome q.tree := by
  obtain ⟨g, hrun, hg⟩ := execute_of_outcome h
  have hstanding : g.toStanding = (⟨s'.standing, none⟩ : Stage).toStanding := hg
  have hrest := q.execute_congr hstanding
  rw [outcome_program, outcome_program, p.steps_join q, execute_append, hrun]
  exact Prod.ext hrest.1 hrest.2

theorem outcome_join_error {s : AnalysisState} {p : Program} (q : Program) {e : AnalysisError} {g : Standing}
    (h : s.outcome p.tree = (some e, g)) : s.outcome (p.join q).tree = (some e, g) := by
  obtain ⟨g', hrun, hg⟩ := execute_of_outcome h
  rw [outcome_program, p.steps_join q, execute_append, hrun, ← hg]

/-- After a program without an error the analysis is in the global scope and no flag is set, and the next
program comes to what it comes to behind the first one in the same program. Behind a program with an error
it is never reached. -/
theorem sessions_compose {text₁ text₂ : String} {d₁ d₂ : Derived} (h₁ : parseText .program text₁ = .ok d₁)
    (h₂ : parseText .program text₂ = .ok d₂) :
    (∃ p q : Program, p.tree = d₁.tree ∧ q.tree = d₂.tree ∧
      Program.tree ⟨p.body ++ q.body⟩ = d₁.tree.joined d₂.tree) ∧
    (∀ v s, AnalysisState.start.analyse d₁.tree = (.ok v, s) →
      s.scopes.outer = [] ∧ s.scopes.depth = 0 ∧ s.inPrint = false ∧ s.inReturn = false) ∧
    ∀ s₀ : AnalysisState,
      (∀ v s, s₀.analyse d₁.tree = (.ok v, s) → s.outcome d₂.tree = s₀.outcome (d₁.tree.joined d₂.tree)) ∧
      ∀ e s, s₀.analyse d₁.tree = (.error e, s) → s₀.outcome (d₁.tree.joined d₂.tree) = (some e, s.standing) := by
  obtain ⟨p, hp⟩ := parseText_program h₁
  obtain ⟨q, hq⟩ := parseText_program h₂
  rw [← hp, ← hq, ← p.tree_join q]
  refine ⟨⟨p, q, rfl, rfl, rfl⟩, ?_, ?_⟩
  · intro v s hrun
    obtain ⟨g, hexecute, hstanding⟩ := execute_of_analyse hrun
    obtain ⟨hprint, hreturn⟩ := p.execute_flags hexecute rfl rfl
    have hscopes : s.scopes = g.scopes := congrArg Standing.scopes hstanding
    have hsketch : s.scopes.sketch = ⟨p.outline, [], 0⟩ := by
      rw [hscopes, execute_sketch hexecute]
      exact p.sketchAll_steps
    refine ⟨List.map_eq_nil_iff.mp (congrArg Sketch.outer hsketch), congrArg Sketch.depth hsketch, ?_, ?_⟩
    · exact (congrArg Standing.inPrint hstanding).trans hprint
    · exact (congrArg Standing.inReturn hstanding).trans hreturn
  · intro s₀
    constructor
    · intro v s hrun
      exact (outcome_join_ok q (outcome_of_analyse_ok hrun)).symm
    · intro e s hrun
      exact outcome_join_error q (outcome_of_analyse_error hrun)

theorem sessions_compose_refused :
    ∃ d₁ d₂ v s, parseText .program "var x = 1; fun f(a) { return a; }" = .ok d₁ ∧
      parseText .program "print x; { y; }" = .ok d₂ ∧ AnalysisState.start.analyse d₁.tree = (.ok v, s) ∧
      (s.outcome d₂.tree).1 = some (.undeclared "y") ∧ (s.outcome d₂.tree).2.scopes.depth = 1 ∧
      s.outcome d₂.tree = AnalysisState.start.outcome (d₁.tree.joined d₂.tree) := by
  obtain ⟨d₁, hd₁, hsecond⟩ := exists_derived "var x = 1; fun f(a) { return a; }"
    (fun d₁ => passes "print x; { y; }" fun d₂ =>
      match AnalysisState.start.analyse d₁.tree with
      | (.ok _, s) =>
        decide ((s.outcome d₂.tree).1 = some (.undeclared "y")) && decide ((s.outcome d₂.tree).2.scopes.depth = 1)
      | _ => false)
    (by decide +kernel)
  obtain ⟨d₂, hd₂, hrefused⟩ := exists_derived _ _ hsecond
  split at hrefused
  · next v s hrun =>
    obtain ⟨herror, hdepth⟩ := Bool.and_eq_true_iff.mp hrefused
    have hjoined := ((sessions_compose hd₁ hd₂).2.2 .start).1 v s hrun
    exact ⟨d₁, d₂, v, s, hd₁, hd₂, hrun, of_decide_eq_true herror, of_decide_eq_true hdepth, hjoined⟩
  · cases hrefused

end CompiScript
