import CompiScript.Proofs.Reading.Statements
import CompiScript.Proofs.Simulation.Functions

namespace CompiScript

open Syntax

namespace Sketch

theorem extend_nil (k : Sketch) : k.extend [] [] = k := by
  obtain ⟨⟨name, level, keys, children⟩, outer, depth⟩ := k
  simp [extend, Outline.extend]

theorem extend_extend (k : Sketch) (ks ls : List (String × Category)) (os ps : List Outline) :
    (k.extend ks os).extend ls ps = k.extend (ks ++ ls) (os ++ ps) := by
  obtain ⟨⟨name, level, keys, children⟩, outer, depth⟩ := k
  simp [extend, Outline.extend]

theorem exit_extend_enter (k : Sketch) (name : String) (ks : List (String × Category)) (os : List Outline) :
    ((k.enter name).extend ks os).exit = k.extend [] [.mk name (k.depth + 1) ks os] :=
  rfl

end Sketch

namespace Outline

mutual

def Levelled (level : Nat) : Outline → Prop
  | .mk _ l _ children => l = level ∧ AllLevelled (level + 1) children

def AllLevelled (level : Nat) : List Outline → Prop
  | [] => True
  | o :: os => Levelled level o ∧ AllLevelled level os

end

theorem allLevelled_append {level : Nat} {os ps : List Outline} :
    AllLevelled level (os ++ ps) ↔ AllLevelled level os ∧ AllLevelled level ps := by
  induction os with
  | nil => simp [AllLevelled]
  | cons o os ih => simp [AllLevelled, ih, and_assoc]

end Outline

namespace Syntax

open Outline Step

def ForInit.keys : ForInit → List (String × Category)
  | .variable v => [(v.name.text, .variables)]
  | expression _ => []
  | nothing => []

def Params.keys : Option Params → List (String × Category)
  | none => []
  | some ps => ps.names.map fun x => (x.text, .variables)

def Declaration.keys : Declaration → List (String × Category)
  | .classType _ => []
  | .function name _ _ => [(name.text, .functions)]
  | .variable v => [(v.name.text, .variables)]
  | .statement _ => []

def Declaration.keysAll : List Declaration → List (String × Category)
  | [] => []
  | d :: ds => d.keys ++ Declaration.keysAll ds

mutual

def Statement.outlines (scope : String) (level : Nat) : Statement → List Outline
  | .expression _ => []
  | .forLoop head body =>
    [.mk "For Loop" (level + 1) head.init.keys
      [.mk "For Loop Body" (level + 2) [] (body.outlines "Block Scope" (level + 2))]]
  | .ifThen _ yes => yes.outlines "If Block" level
  | .ifElse _ yes no => yes.outlines "If Block" level ++ no.outlines "Else Block" level
  | .print _ => []
  | .giveBack _ => []
  | .whileLoop _ body => body.outlines "While Loop" level
  | .block body =>
    [.mk scope (level + 1) (Declaration.keysAll body) (Declaration.outlinesAll (level + 1) body)]

def Declaration.outlines (level : Nat) : Declaration → List Outline
  | .classType _ => []
  | .function name params body =>
    [.mk ("Function '" ++ name.text ++ "'") (level + 1) (Params.keys params)
      [.mk ("Function " ++ name.text ++ " Body") (level + 2) (Declaration.keysAll body)
        (Declaration.outlinesAll (level + 2) body)]]
  | .variable _ => []
  | .statement s => s.outlines "Block Scope" level

def Declaration.outlinesAll (level : Nat) : List Declaration → List Outline
  | [] => []
  | d :: ds => d.outlines level ++ Declaration.outlinesAll level ds

end

def Program.outline (p : Program) : Outline :=
  .mk "global" 0 (Declaration.keysAll p.body) (Declaration.outlinesAll 0 p.body)

mutual

theorem Statement.outlines_levelled (scope : String) (level : Nat) : ∀ s : Statement,
    AllLevelled (level + 1) (s.outlines scope level)
  | .expression _ => trivial
  | .forLoop _ body => ⟨⟨rfl, ⟨rfl, body.outlines_levelled _ (level + 2)⟩, trivial⟩, trivial⟩
  | .ifThen _ yes => yes.outlines_levelled _ level
  | .ifElse _ yes no =>
    allLevelled_append.mpr ⟨yes.outlines_levelled _ level, no.outlines_levelled _ level⟩
  | .print _ => trivial
  | .giveBack _ => trivial
  | .whileLoop _ body => body.outlines_levelled _ level
  | .block body => ⟨⟨rfl, Declaration.outlinesAll_levelled (level + 1) body⟩, trivial⟩

theorem Declaration.outlines_levelled (level : Nat) : ∀ d : Declaration,
    AllLevelled (level + 1) (d.outlines level)
  | .classType _ => trivial
  | .function _ _ body =>
    ⟨⟨rfl, ⟨rfl, Declaration.outlinesAll_levelled (level + 2) body⟩, trivial⟩, trivial⟩
  | .variable _ => trivial
  | .statement s => s.outlines_levelled _ level

theorem Declaration.outlinesAll_levelled (level : Nat) : ∀ ds : List Declaration,
    AllLevelled (level + 1) (Declaration.outlinesAll level ds)
  | [] => trivial
  | d :: ds => allLevelled_append.mpr ⟨d.outlines_levelled level, Declaration.outlinesAll_levelled level ds⟩

end

theorem Assignment.sketchAll_steps (a : Assignment) (k : Sketch) : sketchAll a.steps k = k := by
  induction a with
  | assign object target value ih =>
    simp only [steps, List.cons_append, sketchAll, sketchAll_append, Step.sketch, ih]
  | operation e => rfl

theorem Expression.sketchAll_steps (e : Expression) (k : Sketch) : sketchAll e.steps k = k := by
  cases e with
  | assignment a => exact a.sketchAll_steps k
  | function parts => rfl

theorem VarDecl.sketchAll_steps (v : VarDecl) (k : Sketch) :
    sketchAll v.steps k = k.extend [(v.name.text, .variables)] [] := by
  obtain ⟨name, value⟩ := v
  cases value with
  | none => rfl
  | some e => simp only [steps, List.cons_append, sketchAll, sketchAll_append, Step.sketch, e.sketchAll_steps,
      Declared.category]

theorem headSteps_sketch (es : List Expression) (k : Sketch) : sketchAll (headSteps es) k = k := by
  match es with
  | [] => rfl
  | [c] => simp only [headSteps, sketchAll_append, c.sketchAll_steps, sketchAll, Step.sketch]
  | c :: u :: _ =>
    simp only [headSteps, sketchAll_append, c.sketchAll_steps, sketchAll, Step.sketch, u.sketchAll_steps]

theorem ForHead.sketchAll_steps (h : ForHead) (k : Sketch) :
    sketchAll h.steps k = k.extend h.init.keys [] := by
  obtain ⟨init, condition, update⟩ := h
  simp only [steps, sketchAll_append, headSteps_sketch]
  cases init with
  | «variable» v => exact v.sketchAll_steps k
  | expression e => rw [ForInit.steps, e.sketchAll_steps, ForInit.keys, k.extend_nil]
  | nothing => exact k.extend_nil.symm

theorem sketchAll_declareParams (names : List Name) (k : Sketch) :
    sketchAll (names.map fun x => declare .parameter x.text) k =
      k.extend (names.map fun x => (x.text, .variables)) [] := by
  induction names generalizing k with
  | nil => exact k.extend_nil.symm
  | cons x names ih =>
    simp only [List.map_cons, sketchAll, Step.sketch, ih, Sketch.extend_extend]
    rfl

theorem Params.sketchAll_steps (function : String) (params : Option Params) (k : Sketch) :
    sketchAll (Params.steps function params) k = k.extend (Params.keys params) [] := by
  cases params with
  | none => exact k.extend_nil.symm
  | some ps => simp only [steps, sketchAll_append, sketchAll_declareParams, sketchAll, Step.sketch, keys]

-- What is entered is left again, so statements and declarations only extend the current scope.
mutual

theorem Statement.sketchAll_steps (scope owner : Option String) (k : Sketch) : ∀ s : Statement,
    sketchAll (s.steps scope owner) k = k.extend [] (s.outlines (scope.getD "Block Scope") k.depth)
  | .expression e => by
    rw [Statement.steps, e.sketchAll_steps, Statement.outlines, k.extend_nil]
  | .forLoop head body => by
    simp only [Statement.steps, List.cons_append, sketchAll, sketchAll_append, Step.sketch,
      head.sketchAll_steps, body.sketchAll_steps none none, Sketch.exit_extend_enter, Sketch.extend_extend,
      List.append_nil, List.nil_append]
    rfl
  | .ifThen condition yes => by
    simp only [Statement.steps, sketchAll, sketchAll_append, Step.sketch, condition.sketchAll_steps,
      yes.sketchAll_steps (some "If Block") none]
    rfl
  | .ifElse condition yes no => by
    simp only [Statement.steps, List.append_assoc, List.cons_append, sketchAll, sketchAll_append, Step.sketch,
      condition.sketchAll_steps, yes.sketchAll_steps (some "If Block") none,
      no.sketchAll_steps (some "Else Block") none, Sketch.extend_extend]
    rfl
  | .print e => by
    simp only [Statement.steps, List.cons_append, sketchAll, sketchAll_append, Step.sketch, e.sketchAll_steps,
      Statement.outlines, k.extend_nil]
  | .giveBack value => by
    cases value with
    | none => exact k.extend_nil.symm
    | some e =>
      simp only [Statement.steps, returnSteps, sketchAll_append, e.sketchAll_steps, sketchAll, Step.sketch,
        Statement.outlines, k.extend_nil]
  | .whileLoop condition body => by
    simp only [Statement.steps, sketchAll, sketchAll_append, Step.sketch, condition.sketchAll_steps,
      body.sketchAll_steps (some "While Loop") none]
    rfl
  | .block body => by
    simp only [Statement.steps, List.cons_append, sketchAll, sketchAll_append, Step.sketch,
      Declaration.sketchAll_stepsAll none _ body]
    rfl

theorem Declaration.sketchAll_steps (owner : Option String) (k : Sketch) : ∀ d : Declaration,
    sketchAll (d.steps owner) k = k.extend d.keys (d.outlines k.depth)
  | .classType _ => k.extend_nil.symm
  | .function name params body => by
    simp only [Declaration.steps, List.cons_append, List.append_assoc, sketchAll, sketchAll_append, Step.sketch,
      Params.sketchAll_steps, Declaration.sketchAll_stepsAll (some name.text) _ body, Sketch.exit_extend_enter,
      Sketch.extend_extend, List.append_nil, List.nil_append]
    rfl
  | .variable v => v.sketchAll_steps k
  | .statement s => s.sketchAll_steps none owner k

theorem Declaration.sketchAll_stepsAll (owner : Option String) (k : Sketch) : ∀ ds : List Declaration,
    sketchAll (Declaration.stepsAll owner ds) k =
      k.extend (Declaration.keysAll ds) (Declaration.outlinesAll k.depth ds)
  | [] => k.extend_nil.symm
  | d :: ds => by
    rw [Declaration.stepsAll, sketchAll_append, d.sketchAll_steps, Declaration.sketchAll_stepsAll _ _ ds,
      Sketch.extend_extend]
    rfl

end

theorem Program.sketchAll_steps (p : Program) : sketchAll p.steps .start = ⟨p.outline, [], 0⟩ :=
  Declaration.sketchAll_stepsAll none .start p.body

end Syntax

theorem Scopes.tree_outline {s : Scopes} (h : s.outer = []) : s.tree.outline = s.sketch.current := by
  obtain ⟨current, outer, depth⟩ := s
  subst h
  simp [tree, closeAll, Frame.close, Scope.outline, sketch, Frame.outline]

theorem execute_outline {p : Program} {g : Stage} (h : execute p.steps .start = (none, g)) :
    g.scopes.tree.outline = p.outline ∧ p.outline.Distinct := by
  have hsketch : g.scopes.sketch = ⟨p.outline, [], 0⟩ := by
    rw [execute_sketch h]
    exact p.sketchAll_steps
  have houter : g.scopes.outer = [] := List.map_eq_nil_iff.mp (congrArg Sketch.outer hsketch)
  have hdistinct : g.scopes.sketch.Distinct :=
    execute_distinct h ⟨⟨List.nodup_nil, trivial⟩, trivial⟩
  rw [hsketch] at hdistinct
  refine ⟨?_, hdistinct.1⟩
  rw [Scopes.tree_outline houter, hsketch]

theorem accepted_scopes {text : String} {d : Derived} (h : parseText .program text = .ok d) :
    ∃ p : Program, p.tree = d.tree ∧ p.outline.Levelled 0 ∧
      ∀ v s, AnalysisState.start.analyse d.tree = (.ok v, s) →
        s.scopes.tree.outline = p.outline ∧ p.outline.Distinct := by
  obtain ⟨p, hp⟩ := parseText_program h
  refine ⟨p, hp, ⟨rfl, Declaration.outlinesAll_levelled 0 p.body⟩, ?_⟩
  intro v s hrun
  rw [← hp] at hrun
  obtain ⟨g, hexecute, hstanding⟩ := execute_of_analyse hrun
  have hscopes : s.scopes = g.scopes := congrArg Standing.scopes hstanding
  rw [hscopes]
  exact execute_outline hexecute

theorem accepted_scopes_nested : ∃ d v s, parseText .program
      "fun f(a) { for (var i;;) { var b; } } if (true) { } else { }" = .ok d ∧
    AnalysisState.start.analyse d.tree = (.ok v, s) ∧
      ∃ p : Program, p.tree = d.tree ∧ s.scopes.tree.outline = p.outline := by
  obtain ⟨d, hd, haccepted⟩ := exists_derived
    "fun f(a) { for (var i;;) { var b; } } if (true) { } else { }"
    (fun d => (AnalysisState.start.analyse d.tree).1.isOk) (by decide +kernel)
  obtain ⟨p, hp, -, hscopes⟩ := accepted_scopes hd
  match hrun : AnalysisState.start.analyse d.tree with
  | (.ok v, s) => exact ⟨d, v, s, hd, hrun, p, hp, (hscopes v s hrun).1⟩
  | (.error e, s) =>
    simp only [hrun] at haccepted
    cases haccepted

end CompiScript
