import CompiScript.Proofs.Renaming.Trees

namespace CompiScript

open Syntax Step
variable {I : String → Prop} (ρ : Renaming I)

def Scope.titles : List String :=
  ["global", "For Loop", "For Loop Body", "If Block", "Else Block", "While Loop", "Block Scope"]

inductive Retitled (r : String → String) : String → String → Prop
  | fixed {title : String} (h : title ∈ Scope.titles) : Retitled r title title
  | function (f : String) : Retitled r ("Function '" ++ f ++ "'") ("Function '" ++ r f ++ "'")
  | body (f : String) : Retitled r ("Function " ++ f ++ " Body") ("Function " ++ r f ++ " Body")

inductive Step.Renamed : Step → Step → Prop
  | enter {title title' : String} (h : Retitled ρ.apply title title') : Renamed (.enter title) (.enter title')
  | exit : Renamed .exit .exit
  | declare (what : Declared) (x : String) : Renamed (.declare what x) (.declare what (ρ.total x))
  | bind (f : String) (keys : List String) : Renamed (.bind f keys) (.bind (ρ.total f) (keys.map ρ.total))
  | unbind : Renamed .unbind .unbind
  | beginPrint : Renamed .beginPrint .beginPrint
  | endPrint : Renamed .endPrint .endPrint
  | aim (x : String) : Renamed (.aim x) (.aim (ρ.total x))
  | weigh (e : LogicOr) : Renamed (.weigh e) (.weigh (e.rename ρ))
  | assign (x : String) : Renamed (.assign x) (.assign (ρ.total x))
  | initialise (x : String) : Renamed (.initialise x) (.initialise (ρ.total x))
  | require (place : String) : Renamed (.require place) (.require place)
  | giveBack (owner : Option String) (bare : Bool) :
      Renamed (.giveBack owner bare) (.giveBack (owner.map ρ.total) bare)

abbrev StepsRenamed : List Step → List Step → Prop :=
  List.Forall₂ (Step.Renamed ρ)

variable {ρ}

theorem StepsRenamed.append {before before' after after' : List Step} (hbefore : StepsRenamed ρ before before')
    (hafter : StepsRenamed ρ after after') : StepsRenamed ρ (before ++ after) (before' ++ after') :=
  List.rel_append hbefore hafter

theorem StepsRenamed.single {s s' : Step} (h : Step.Renamed ρ s s') : StepsRenamed ρ [s] [s'] :=
  .cons h .nil

namespace Syntax

theorem Assignment.steps_rename (a : Assignment) : StepsRenamed ρ a.steps (a.rename ρ).steps := by
  induction a with
  | assign object target value ih =>
    exact .append (.cons (.aim target.text) ih) (.single (.assign target.text))
  | operation e => exact .single (.weigh e)

theorem Expression.steps_rename (e : Expression) : StepsRenamed ρ e.steps (e.rename ρ).steps := by
  cases e with
  | assignment a => exact a.steps_rename
  | function parts => exact .single (.weigh _)

theorem Expression.steps_rename_condition (e : Expression) (place : String) {after after' : List Step}
    (h : StepsRenamed ρ after after') :
    StepsRenamed ρ (e.steps ++ require place :: after) ((e.rename ρ).steps ++ require place :: after') :=
  e.steps_rename.append (.cons (.require place) h)

theorem VarDecl.steps_rename (v : VarDecl) : StepsRenamed ρ v.steps (v.rename ρ).steps := by
  obtain ⟨name, value⟩ := v
  cases value with
  | none => exact .single (.declare .variable name.text)
  | some e =>
    exact .append (.cons (.declare .variable name.text) e.steps_rename) (.single (.initialise name.text))

theorem headSteps_rename (es : List Expression) :
    StepsRenamed ρ (headSteps es) (headSteps (es.map (Expression.rename ρ))) := by
  match es with
  | [] => exact .nil
  | [c] => exact c.steps_rename_condition _ .nil
  | c :: u :: _ => exact c.steps_rename_condition _ u.steps_rename

theorem ForHead.steps_rename (h : ForHead) : StepsRenamed ρ h.steps (h.rename ρ).steps := by
  obtain ⟨init, condition, update⟩ := h
  have hinit : StepsRenamed ρ init.steps (init.rename ρ).steps := by
    cases init with
    | «variable» v => exact v.steps_rename
    | expression e => exact e.steps_rename
    | nothing => exact .nil
  have hparts : (condition.map (Expression.rename ρ)).toList ++ (update.map (Expression.rename ρ)).toList =
      (condition.toList ++ update.toList).map (Expression.rename ρ) := by
    cases condition <;> cases update <;> rfl
  simp only [rename, steps, hparts]
  exact hinit.append (headSteps_rename _)

theorem Params.steps_rename (f : String) (params : Option Params) :
    StepsRenamed ρ (Params.steps f params) (Params.steps (ρ.total f) (params.map (Params.rename ρ))) := by
  cases params with
  | none => exact .nil
  | some ps =>
    have hnames : StepsRenamed ρ (ps.names.map fun x => declare .parameter x.text)
        ((ps.rename ρ).names.map fun x => declare .parameter x.text) := by
      have hsame : (ps.rename ρ).names = ps.names.map (Name.rename ρ) := rfl
      rw [hsame]
      induction ps.names with
      | nil => exact .nil
      | cons x xs ih => exact .cons (.declare .parameter x.text) ih
    have hkeys : (ps.rename ρ).names.map Name.text = (ps.names.map Name.text).map ρ.total := by
      have hsame : (ps.rename ρ).names = ps.names.map (Name.rename ρ) := rfl
      rw [hsame, List.map_map, List.map_map]
      rfl
    rw [Option.map_some, Params.steps, Params.steps, hkeys]
    exact hnames.append (.single (.bind f _))

mutual

theorem Statement.steps_rename (scope owner : Option String)
    (hscope : scope.getD "Block Scope" ∈ Scope.titles) : ∀ s : Statement, s.tree.Within I →
    StepsRenamed ρ (s.steps scope owner) ((s.rename ρ).steps scope (owner.map ρ.total))
  | .expression e, _ => e.steps_rename
  | .forLoop head body, h => by
    have hhead : StepsRenamed ρ (enter "For Loop" :: head.steps) (enter "For Loop" :: (head.rename ρ).steps) :=
      .cons (.enter (.fixed (by decide))) head.steps_rename
    have hbody := Statement.steps_rename none none (by decide) body (h.only.child (List.mem_append_right _ (.head _)))
    exact .append (.append hhead (.cons (.enter (.fixed (by decide))) hbody)) (.cons .exit (.cons .exit .nil))
  | .ifThen condition yes, h => by
    have hyes := Statement.steps_rename (some "If Block") none (by decide) yes (h.only.child (by simp))
    exact condition.steps_rename_condition _ hyes
  | .ifElse condition yes no, h => by
    have hyes := Statement.steps_rename (some "If Block") none (by decide) yes (h.only.child (by simp))
    have hno := Statement.steps_rename (some "Else Block") none (by decide) no (h.only.child (by simp))
    exact (condition.steps_rename_condition _ hyes).append hno
  | .print e, _ => .append (.cons .beginPrint e.steps_rename) (.single .endPrint)
  | .giveBack none, _ => .single (.giveBack owner true)
  | .giveBack (some e), _ => e.steps_rename.append (.single (.giveBack owner false))
  | .whileLoop condition body, h => by
    have hbody := Statement.steps_rename (some "While Loop") none (by decide) body (h.only.child (by simp))
    exact condition.steps_rename_condition _ hbody
  | .block body, h => by
    have hbody := Declaration.stepsAll_rename none body
      fun t ht => h.only.child (.tail _ (List.mem_append_left _ ht))
    exact .append (.cons (.enter (.fixed hscope)) hbody) (.single .exit)

theorem Declaration.steps_rename (owner : Option String) : ∀ d : Declaration, d.tree.Within I →
    StepsRenamed ρ (d.steps owner) ((d.rename ρ).steps (owner.map ρ.total))
  | .classType _, _ => .nil
  | .function name params body, h => by
    have hparts := h.only.child (t := .node .function _) (.tail _ (.head _))
    have hname : ρ.total name.text = ρ.apply name.text := ρ.total_eq (Name.within (hparts.child (by simp)))
    have hblock := hparts.child (t := .node .block _) (List.mem_append_right _ (.tail _ (.head _)))
    have hbody := Declaration.stepsAll_rename (some name.text) body
      fun t ht => hblock.child (.tail _ (List.mem_append_left _ ht))
    have hfunction := Retitled.function (r := ρ.apply) name.text
    have hinside := Retitled.body (r := ρ.apply) name.text
    rw [← hname] at hfunction hinside
    have hends : StepsRenamed ρ [exit, exit, unbind] [exit, exit, unbind] :=
      .cons .exit (.cons .exit (.cons .unbind .nil))
    refine .append (.append (.cons (.declare .function name.text) (.cons (.enter hfunction) ?_)) ?_) hends
    · exact Params.steps_rename name.text params
    · exact .cons (.enter hinside) hbody
  | .variable v, _ => v.steps_rename
  | .statement s, h => Statement.steps_rename none owner (by decide) s h.only

theorem Declaration.stepsAll_rename (owner : Option String) : ∀ ds : List Declaration,
    (∀ t ∈ Declaration.trees ds, t.Within I) →
      StepsRenamed ρ (Declaration.stepsAll owner ds)
        (Declaration.stepsAll (owner.map ρ.total) (Declaration.renameAll ρ ds))
  | [], _ => .nil
  | d :: ds, h => by
    have hd := Declaration.steps_rename owner d (h _ (.head _))
    exact hd.append (Declaration.stepsAll_rename owner ds fun t ht => h t (.tail _ ht))

end

theorem Program.steps_rename (p : Program) (h : p.tree.Within I) : StepsRenamed ρ p.steps (p.rename ρ).steps :=
  Declaration.stepsAll_rename none p.body fun _ ht => h.child (List.mem_append_left _ ht)

end Syntax

end CompiScript
