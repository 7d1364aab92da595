import CompiScript.Proofs.Blindness.Erasure

namespace CompiScript

open Syntax

namespace Syntax

theorem Unary.type_erase (g : Standing) (u : Unary) : u.erase.type g = u.type g := by
  cases u with
  | signed operator operand => rfl
  | call c =>
    cases c with
    | function parts => rfl
    | primary callee suffixes => cases callee <;> rfl

theorem Chain.type_map {α : Type} {operand : α → Except AnalysisError (Option Ty)} {f : α → α}
    (hf : ∀ a, operand (f a) = operand a)
    (check : Option Ty → Kind → Option Ty → Except AnalysisError Unit) (result : Ty) (c : Chain α) :
    (c.map f).type operand check result = c.type operand check result := by
  obtain ⟨a, rest⟩ := c
  have hrest : ∀ (left : Option Ty) (rest : List (Kind × α)),
      checkRest operand (check left) (rest.map fun p => (p.1, f p.2)) =
        checkRest operand (check left) rest := by
    intro left rest
    induction rest with
    | nil => rfl
    | cons p rest ih =>
      obtain ⟨k, b⟩ := p
      simp only [List.map_cons, checkRest, hf, ih]
  cases rest with
  | nil => exact hf a
  | cons p rest =>
    have hmore := fun left => hrest left (p :: rest)
    simp only [List.map_cons] at hmore
    simp only [map, type, List.map_cons, hf, hmore]

theorem LogicOr.type_erase (g : Standing) (e : LogicOr) : e.erase.type g = e.type g := by
  have hfactor := Chain.type_map (Unary.type_erase g) (checkArithmetic g) Ty.num
  have hterm := Chain.type_map hfactor (checkArithmetic g) Ty.num
  have hcomparison := Chain.type_map hterm (checkArithmetic g) Ty.boolean
  have hequality := Chain.type_map hcomparison checkEquality Ty.boolean
  have hand := Chain.type_map hequality (checkLogical "and") Ty.boolean
  exact Chain.type_map hand (checkLogical "or") Ty.boolean e

end Syntax

def Step.erase : Step → Step
  | weigh e => weigh e.erase
  | s => s

theorem Step.run_erase (s : Step) (g : Stage) : s.erase.run g = s.run g := by
  cases s with
  | weigh e => simp only [erase, run, LogicOr.type_erase]
  | _ => rfl

theorem execute_map_erase (steps : List Step) (g : Stage) :
    execute (steps.map Step.erase) g = execute steps g := by
  induction steps generalizing g with
  | nil => rfl
  | cons s steps ih =>
    simp only [List.map_cons, execute, s.run_erase]
    split
    · exact ih _
    · rfl

namespace Syntax

open Step

theorem Assignment.steps_erase (a : Assignment) : a.erase.steps = a.steps.map Step.erase := by
  induction a with
  | assign object target value ih => simp [erase, steps, ih, Step.erase]
  | operation e => rfl

theorem Expression.steps_erase (e : Expression) : e.erase.steps = e.steps.map Step.erase := by
  cases e with
  | assignment a => exact a.steps_erase
  | function parts => rfl

theorem VarDecl.steps_erase (v : VarDecl) : v.erase.steps = v.steps.map Step.erase := by
  obtain ⟨name, value⟩ := v
  cases value with
  | none => rfl
  | some e => simp [erase, steps, e.steps_erase, Step.erase]

theorem headSteps_erase (es : List Expression) :
    headSteps (es.map Expression.erase) = (headSteps es).map Step.erase := by
  match es with
  | [] => rfl
  | [c] => simp [headSteps, c.steps_erase, Step.erase]
  | c :: u :: _ => simp [headSteps, c.steps_erase, u.steps_erase, Step.erase]

theorem ForHead.steps_erase (h : ForHead) : h.erase.steps = h.steps.map Step.erase := by
  obtain ⟨init, condition, update⟩ := h
  have hinit : init.erase.steps = init.steps.map Step.erase := by
    cases init with
    | «variable» v => exact v.steps_erase
    | expression e => exact e.steps_erase
    | nothing => rfl
  have hparts : (condition.map Expression.erase).toList ++ (update.map Expression.erase).toList =
      (condition.toList ++ update.toList).map Expression.erase := by
    cases condition <;> cases update <;> rfl
  simp only [erase, steps]
  rw [hinit, hparts, headSteps_erase, List.map_append]

theorem Params.steps_erase (function : String) (params : Option Params) :
    (Params.steps function params).map Step.erase = Params.steps function params := by
  cases params with
  | none => rfl
  | some ps => simp [steps, Step.erase]

mutual

theorem Statement.steps_erase (scope owner : Option String) : ∀ s : Statement,
    s.erase.steps scope owner = (s.steps scope owner).map Step.erase
  | .expression e => e.steps_erase
  | .forLoop head body => by
    simp [Statement.erase, Statement.steps, head.steps_erase, body.steps_erase none none, Step.erase]
  | .ifThen condition yes => by
    simp [Statement.erase, Statement.steps, condition.steps_erase, yes.steps_erase, Step.erase]
  | .ifElse condition yes no => by
    simp [Statement.erase, Statement.steps, condition.steps_erase, yes.steps_erase, no.steps_erase,
      Step.erase]
  | .print e => by
    simp [Statement.erase, Statement.steps, e.steps_erase, Step.erase]
  | .giveBack none => rfl
  | .giveBack (some e) => by
    simp [Statement.erase, Statement.steps, returnSteps, e.steps_erase, Step.erase]
  | .whileLoop condition body => by
    simp [Statement.erase, Statement.steps, condition.steps_erase, body.steps_erase, Step.erase]
  | .block body => by
    simp [Statement.erase, Statement.steps, Declaration.stepsAll_erase none body, Step.erase]

theorem Declaration.steps_erase (owner : Option String) : ∀ d : Declaration,
    d.erase.steps owner = (d.steps owner).map Step.erase
  | .classType _ => rfl
  | .function name params body => by
    simp [Declaration.erase, Declaration.steps, Declaration.stepsAll_erase (some name.text) body,
      Params.steps_erase, Step.erase]
  | .variable v => v.steps_erase
  | .statement s => s.steps_erase none owner

theorem Declaration.stepsAll_erase (owner : Option String) : ∀ ds : List Declaration,
    Declaration.stepsAll owner (Declaration.eraseAll ds) = (Declaration.stepsAll owner ds).map Step.erase
  | [] => rfl
  | d :: ds => by
    rw [Declaration.eraseAll, Declaration.stepsAll, Declaration.stepsAll, d.steps_erase,
      Declaration.stepsAll_erase owner ds, List.map_append]

end

theorem Program.outcome_erase (s : AnalysisState) (p : Program) :
    s.outcome p.tree.erase = s.outcome p.tree := by
  -- Both analyses take their steps, and these differ only in operations with the same type.
  rw [← p.tree_erase, outcome_program, outcome_program]
  have hsteps : p.erase.steps = p.steps.map Step.erase := Declaration.stepsAll_erase none p.body
  rw [hsteps, execute_map_erase]

end Syntax

/-- The analysis of a program comes to what the analysis of its erasure comes to, and to what it
comes to for every other program with that erasure. -/
theorem erasure_keeps_outcome {text : String} {d : Derived} (h : parseText .program text = .ok d) :
    AnalysisState.start.outcome d.tree.erase = AnalysisState.start.outcome d.tree ∧
      ∀ text' d', parseText .program text' = .ok d' → d'.tree.erase = d.tree.erase →
        AnalysisState.start.outcome d'.tree = AnalysisState.start.outcome d.tree := by
  have hkeeps : ∀ text d, parseText .program text = .ok d →
      AnalysisState.start.outcome d.tree.erase = AnalysisState.start.outcome d.tree := by
    intro text d h
    obtain ⟨p, hp⟩ := parseText_program h
    rw [← hp]
    exact p.outcome_erase .start
  refine ⟨hkeeps text d h, ?_⟩
  intro text' d' h' herase
  rw [← hkeeps text' d' h', herase, hkeeps text d h]

theorem erasure_keeps_outcome_of_replaced : ∃ d d',
    parseText .program "var a; a = a(b) + -c;" = .ok d ∧
    parseText .program "var a; x.a = a[1] + !(2);" = .ok d' ∧
    AnalysisState.start.outcome d'.tree = AnalysisState.start.outcome d.tree := by
  obtain ⟨d, hd, hcompare⟩ := exists_derived "var a; a = a(b) + -c;"
    (fun d => passes "var a; x.a = a[1] + !(2);" fun d' => d'.tree.erase = d.tree.erase)
    (by decide +kernel)
  obtain ⟨d', hd', herase⟩ := exists_derived _ _ hcompare
  exact ⟨d, d', hd, hd', (erasure_keeps_outcome hd).2 _ d' hd' (of_decide_eq_true herase)⟩

end CompiScript
