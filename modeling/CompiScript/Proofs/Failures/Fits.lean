import CompiScript.Proofs.Failures.Errors

namespace CompiScript

open Syntax

def FitAll : List Step → Sketch → Prop
  | [], _ => True
  | s :: steps, k => s.Fits k ∧ FitAll steps (s.sketch k)

theorem fitAll_append {before after : List Step} {k : Sketch} :
    FitAll (before ++ after) k ↔ FitAll before k ∧ FitAll after (sketchAll before k) := by
  induction before generalizing k with
  | nil => simp [FitAll, sketchAll]
  | cons s before ih => simp [FitAll, sketchAll, ih, and_assoc]

namespace Sketch

def Owns (k : Sketch) (owner : Option String) : Prop :=
  ∀ f, owner = some f → k.Has f .functions

theorem owns_none (k : Sketch) : k.Owns none := by
  rintro f ⟨⟩

theorem has_enter {k : Sketch} {x : String} {c : Category} (name : String) (h : k.Has x c) :
    (k.enter name).Has x c := by
  obtain ⟨o, ho, hx⟩ := h
  exact ⟨o, .tail _ ho, hx⟩

theorem has_extend {k : Sketch} {x : String} {c : Category} (ks : List (String × Category))
    (os : List Outline) (h : k.Has x c) : (k.extend ks os).Has x c := by
  obtain ⟨⟨name, level, keys, children⟩, outer, depth⟩ := k
  obtain ⟨o, ho, hx⟩ := h
  rcases List.mem_cons.mp ho with rfl | hmem
  · exact ⟨_, .head _, List.mem_append_left _ hx⟩
  · exact ⟨o, .tail _ hmem, hx⟩

theorem has_extend_self (k : Sketch) (x : String) (c : Category) : (k.extend [(x, c)] []).Has x c := by
  obtain ⟨⟨name, level, keys, children⟩, outer, depth⟩ := k
  exact ⟨_, .head _, List.mem_append_right _ (.head _)⟩

end Sketch

namespace Syntax

open Step

theorem Assignment.fitAll_steps (a : Assignment) (k : Sketch) : FitAll a.steps k := by
  induction a with
  | assign object target value ih =>
    exact ⟨trivial, fitAll_append.mpr ⟨ih, trivial, trivial⟩⟩
  | operation e => exact ⟨trivial, trivial⟩

theorem Expression.fitAll_steps (e : Expression) (k : Sketch) : FitAll e.steps k := by
  cases e with
  | assignment a => exact a.fitAll_steps k
  | function parts => exact ⟨trivial, trivial⟩

theorem VarDecl.fitAll_steps (v : VarDecl) (k : Sketch) : FitAll v.steps k := by
  obtain ⟨name, value⟩ := v
  cases value with
  | none => exact ⟨trivial, trivial⟩
  | some e => exact ⟨trivial, fitAll_append.mpr ⟨e.fitAll_steps _, trivial, trivial⟩⟩

theorem headSteps_fitAll (es : List Expression) (k : Sketch) : FitAll (headSteps es) k := by
  match es with
  | [] => exact trivial
  | [c] => exact fitAll_append.mpr ⟨c.fitAll_steps k, trivial, trivial⟩
  | c :: u :: _ => exact fitAll_append.mpr ⟨c.fitAll_steps k, trivial, u.fitAll_steps _⟩

theorem ForHead.fitAll_steps (h : ForHead) (k : Sketch) : FitAll h.steps k := by
  obtain ⟨init, condition, update⟩ := h
  refine fitAll_append.mpr ⟨?_, headSteps_fitAll _ _⟩
  cases init with
  | «variable» v => exact v.fitAll_steps k
  | expression e => exact e.fitAll_steps k
  | nothing => trivial

theorem Params.fitAll_steps {function : String} {k : Sketch} (params : Option Params)
    (hvariables : ∀ key ∈ k.current.keys, key.2 = .variables) (hfunction : k.Has function .functions) :
    FitAll (Params.steps function params) k := by
  cases params with
  | none => trivial
  | some ps =>
    -- While parameters are declared, their scope holds nothing but parameters.
    have hnames : ∀ (names : List Name) (k : Sketch), (∀ key ∈ k.current.keys, key.2 = .variables) →
        FitAll (names.map fun x => declare .parameter x.text) k := by
      intro names
      induction names with
      | nil => exact fun _ _ => trivial
      | cons x names ih =>
        intro k hk
        refine ⟨hk, ih _ ?_⟩
        obtain ⟨⟨name, level, keys, children⟩, outer, depth⟩ := k
        intro key hkey
        rcases List.mem_append.mp hkey with hold | hnew
        · exact hk key hold
        · rw [List.mem_singleton.mp hnew]
          rfl
    refine fitAll_append.mpr ⟨hnames ps.names k hvariables, ?_, trivial⟩
    rw [sketchAll_declareParams]
    exact Sketch.has_extend _ _ hfunction

mutual

theorem Statement.fitAll_steps (scope : Option String) {owner : Option String} {k : Sketch}
    (howner : k.Owns owner) : ∀ s : Statement, FitAll (s.steps scope owner) k
  | .expression e => e.fitAll_steps k
  | .forLoop head body => by
    rw [Statement.steps, List.append_assoc]
    refine ⟨trivial, fitAll_append.mpr ⟨head.fitAll_steps _, trivial, fitAll_append.mpr ⟨?_, ?_⟩⟩⟩
    · exact body.fitAll_steps none (Sketch.owns_none _)
    · exact ⟨trivial, trivial, trivial⟩
  | .ifThen condition yes =>
    fitAll_append.mpr ⟨condition.fitAll_steps k, trivial, yes.fitAll_steps _ (Sketch.owns_none _)⟩
  | .ifElse condition yes no => by
    rw [Statement.steps, List.append_assoc]
    exact fitAll_append.mpr ⟨condition.fitAll_steps k, trivial,
      fitAll_append.mpr ⟨yes.fitAll_steps _ (Sketch.owns_none _), no.fitAll_steps _ (Sketch.owns_none _)⟩⟩
  | .print e => ⟨trivial, fitAll_append.mpr ⟨e.fitAll_steps _, trivial, trivial⟩⟩
  | .giveBack value => by
    have hback : ∀ bare, (Step.giveBack owner bare).Fits k := by
      intro bare
      cases owner with
      | none => trivial
      | some f => exact howner f rfl
    cases value with
    | none => exact ⟨hback true, trivial⟩
    | some e =>
      refine fitAll_append.mpr ⟨e.fitAll_steps k, ?_, trivial⟩
      rw [e.sketchAll_steps]
      exact hback false
  | .whileLoop condition body =>
    fitAll_append.mpr ⟨condition.fitAll_steps k, trivial, body.fitAll_steps _ (Sketch.owns_none _)⟩
  | .block body =>
    ⟨trivial, fitAll_append.mpr ⟨Declaration.fitAll_stepsAll (Sketch.owns_none _) body, trivial, trivial⟩⟩

theorem Declaration.fitAll_steps {owner : Option String} {k : Sketch}
    (howner : k.Owns owner) : ∀ d : Declaration, FitAll (d.steps owner) k
  | .classType _ => trivial
  | .function name params body => by
    have hself := k.has_extend_self name.text .functions
    rw [Declaration.steps, List.append_assoc]
    refine ⟨trivial, trivial, fitAll_append.mpr ⟨?_, trivial, fitAll_append.mpr ⟨?_, ?_⟩⟩⟩
    · exact Params.fitAll_steps params (fun _ h => nomatch h) (Sketch.has_enter _ hself)
    · rw [Params.sketchAll_steps]
      refine Declaration.fitAll_stepsAll ?_ body
      rintro f ⟨⟩
      exact Sketch.has_enter _ (Sketch.has_extend _ _ (Sketch.has_enter _ hself))
    · exact ⟨trivial, trivial, trivial, trivial⟩
  | .variable v => v.fitAll_steps k
  | .statement s => s.fitAll_steps none howner

theorem Declaration.fitAll_stepsAll {owner : Option String} {k : Sketch}
    (howner : k.Owns owner) : ∀ ds : List Declaration,
    FitAll (Declaration.stepsAll owner ds) k
  | [] => trivial
  | d :: ds => by
    refine fitAll_append.mpr ⟨d.fitAll_steps howner, ?_⟩
    rw [d.sketchAll_steps]
    exact Declaration.fitAll_stepsAll (fun f hf => Sketch.has_extend _ _ (howner f hf)) ds

end

/-- The analysis of a program comes to the step on the stage: all steps before it are taken. -/
def Program.Reaches (p : Program) (s : Step) (g : Stage) : Prop :=
  ∃ before after, p.steps = before ++ s :: after ∧ execute before .start = (none, g)

end Syntax

def Sketch.Plain (k : Sketch) : Prop :=
  ∀ o ∈ k.current :: k.outer, ∀ key ∈ o.keys, key.2 = .variables ∨ key.2 = .functions

theorem Step.sketch_plain {k : Sketch} (s : Step) (h : k.Plain) : (s.sketch k).Plain := by
  obtain ⟨⟨name, level, keys, children⟩, outer, depth⟩ := k
  cases s with
  | enter scope =>
    intro o ho
    rcases List.mem_cons.mp ho with rfl | hmem
    · intro key hkey
      cases hkey
    · exact h o hmem
  | exit =>
    cases outer with
    | nil => exact h
    | cons p outer =>
      obtain ⟨pname, plevel, pkeys, pchildren⟩ := p
      intro o ho
      rcases List.mem_cons.mp ho with rfl | hmem
      · intro key hkey
        rcases List.mem_append.mp hkey with hold | hnone
        · exact h _ (.tail _ (.head _)) key hold
        · cases hnone
      · exact h o (.tail _ (.tail _ hmem))
  | declare what x =>
    intro o ho
    rcases List.mem_cons.mp ho with rfl | hmem
    · intro key hkey
      rcases List.mem_append.mp hkey with hold | hnew
      · exact h _ (.head _) key hold
      · rw [List.mem_singleton.mp hnew]
        cases what <;> simp [Declared.category]
    · exact h o (.tail _ hmem)
  | _ => exact h

theorem sketchAll_plain {k : Sketch} (steps : List Step) (h : k.Plain) : (sketchAll steps k).Plain := by
  induction steps generalizing k with
  | nil => exact h
  | cons s steps ih => exact ih (s.sketch_plain h)

end CompiScript
