import CompiScript.Proofs.Places

namespace CompiScript

open Syntax Step

def Step.flag (b : Bool) : Step → Bool
  | bind _ _ => true
  | unbind => false
  | _ => b

def flagAfter (steps : List Step) (b : Bool) : Bool :=
  steps.foldl Step.flag b

theorem flagAfter_append (before after : List Step) (b : Bool) :
    flagAfter (before ++ after) b = flagAfter after (flagAfter before b) :=
  List.foldl_append

theorem flagAfter_cons (s : Step) (steps : List Step) (b : Bool) :
    flagAfter (s :: steps) b = flagAfter steps (s.flag b) :=
  rfl

theorem execute_inReturn {steps : List Step} {g g' : Stage} (h : execute steps g = (none, g')) :
    g'.inReturn = flagAfter steps g.inReturn := by
  induction steps generalizing g with
  | nil =>
    cases h
    rfl
  | cons s steps ih =>
    obtain ⟨g₁, hs, hrest⟩ := execute_cons_ok h
    have hflag : g₁.inReturn = s.flag g.inReturn := by
      cases run_takes hs <;> rfl
    rw [ih hrest, hflag, flagAfter_cons]

def Steady (steps : List Step) : Prop :=
  ∀ s ∈ steps, ∀ b, s.flag b = b

theorem Steady.flagAfter_eq {steps : List Step} (h : Steady steps) (b : Bool) : flagAfter steps b = b := by
  induction steps with
  | nil => rfl
  | cons s steps ih =>
    rw [flagAfter_cons, h s (.head steps) b]
    exact ih fun u hu => h u (.tail s hu)

theorem steady_append {before after : List Step} : Steady (before ++ after) ↔ Steady before ∧ Steady after :=
  List.forall_mem_append

theorem steady_cons {s : Step} {steps : List Step} : Steady (s :: steps) ↔ (∀ b, s.flag b = b) ∧ Steady steps :=
  List.forall_mem_cons

theorem steady_nil : Steady [] :=
  fun _ hs => nomatch hs

namespace Syntax

theorem Expression.steady_steps (e : Expression) : Steady e.steps := by
  intro s hs b
  have hoperation := e.isOperation_of_mem hs
  cases s <;> first | rfl | cases hoperation

theorem VarDecl.steady_steps (v : VarDecl) : Steady v.steps := by
  obtain ⟨name, value⟩ := v
  cases value with
  | none => exact steady_cons.mpr ⟨fun _ => rfl, steady_nil⟩
  | some e =>
    refine steady_append.mpr ⟨steady_cons.mpr ⟨fun _ => rfl, e.steady_steps⟩, ?_⟩
    exact steady_cons.mpr ⟨fun _ => rfl, steady_nil⟩

theorem headSteps_steady (es : List Expression) : Steady (headSteps es) := by
  match es with
  | [] => exact steady_nil
  | [c] => exact steady_append.mpr ⟨c.steady_steps, steady_cons.mpr ⟨fun _ => rfl, steady_nil⟩⟩
  | c :: u :: _ => exact steady_append.mpr ⟨c.steady_steps, steady_cons.mpr ⟨fun _ => rfl, u.steady_steps⟩⟩

theorem ForHead.steady_steps (h : ForHead) : Steady h.steps := by
  obtain ⟨init, condition, update⟩ := h
  refine steady_append.mpr ⟨?_, headSteps_steady _⟩
  cases init with
  | «variable» v => exact v.steady_steps
  | expression e => exact e.steady_steps
  | nothing => exact steady_nil

theorem steady_condition (e : Expression) (place : String) : Steady (e.steps ++ [require place]) :=
  steady_append.mpr ⟨e.steady_steps, steady_cons.mpr ⟨fun _ => rfl, steady_nil⟩⟩

theorem returnSteps_steady (owner : Option String) (value : Option Expression) : Steady (returnSteps owner value) := by
  cases value with
  | none => exact steady_cons.mpr ⟨fun _ => rfl, steady_nil⟩
  | some e => exact steady_append.mpr ⟨e.steady_steps, steady_cons.mpr ⟨fun _ => rfl, steady_nil⟩⟩

theorem Place.steady_ownSteps (pl : Place) : Steady pl.ownSteps := by
  rw [ownSteps]
  split
  · exact steady_nil
  · exact steady_nil
  · next v _ => exact v.steady_steps
  · next e _ => exact e.steady_steps
  · next head _ _ => exact steady_cons.mpr ⟨fun _ => rfl, head.steady_steps⟩
  · exact steady_condition _ _
  · exact steady_condition _ _
  · next e _ =>
    exact steady_append.mpr ⟨steady_cons.mpr ⟨fun _ => rfl, e.steady_steps⟩, steady_cons.mpr ⟨fun _ => rfl, steady_nil⟩⟩
  · exact returnSteps_steady _ _
  · exact steady_condition _ _
  · exact steady_nil

theorem Params.flagAfter_steps (f : String) (params : Option Params) (b : Bool) :
    flagAfter (Params.steps f params) b = (params.isSome || b) := by
  cases params with
  | none => rfl
  | some ps =>
    rw [Params.steps, flagAfter_append]
    rfl

-- A function that is declared takes the flag back, and nothing sets it for longer than a function.
mutual

theorem Statement.flagAfter_steps (scope owner : Option String) (b : Bool) : ∀ s : Statement,
    flagAfter (s.steps scope owner) b = (b && !s.declares)
  | .expression e => by
    rw [Statement.steps, e.steady_steps.flagAfter_eq, Statement.declares, Bool.not_false, Bool.and_true]
  | .forLoop head body => by
    have hhead := head.steady_steps.flagAfter_eq b
    simp only [Statement.steps, flagAfter_append, flagAfter_cons, Step.flag, hhead, body.flagAfter_steps]
    rfl
  | .ifThen condition yes => by
    simp only [Statement.steps, flagAfter_append, flagAfter_cons, Step.flag, condition.steady_steps.flagAfter_eq,
      yes.flagAfter_steps]
    rfl
  | .ifElse condition yes no => by
    simp only [Statement.steps, flagAfter_append, flagAfter_cons, Step.flag, condition.steady_steps.flagAfter_eq,
      yes.flagAfter_steps, no.flagAfter_steps, Statement.declares, Bool.not_or, Bool.and_assoc]
  | .print e => by
    simp only [Statement.steps, flagAfter_append, flagAfter_cons, Step.flag, e.steady_steps.flagAfter_eq,
      Statement.declares, Bool.not_false, Bool.and_true]
    rfl
  | .giveBack value => by
    rw [Statement.steps, (returnSteps_steady owner value).flagAfter_eq, Statement.declares, Bool.not_false,
      Bool.and_true]
  | .whileLoop condition body => by
    simp only [Statement.steps, flagAfter_append, flagAfter_cons, Step.flag, condition.steady_steps.flagAfter_eq,
      body.flagAfter_steps]
    rfl
  | .block body => by
    simp only [Statement.steps, flagAfter_append, flagAfter_cons, Step.flag,
      Declaration.flagAfter_stepsAll none _ body]
    rfl

theorem Declaration.flagAfter_steps (owner : Option String) (b : Bool) : ∀ d : Declaration,
    flagAfter (d.steps owner) b = (b && !d.declares)
  | .classType _ => (Bool.and_true b).symm
  | .function name params body => by
    simp only [Declaration.steps, flagAfter_append, flagAfter_cons, Step.flag, Declaration.declares, Bool.not_true,
      Bool.and_false]
    rfl
  | .variable v => by
    rw [Declaration.steps, v.steady_steps.flagAfter_eq, Declaration.declares, Bool.not_false, Bool.and_true]
  | .statement s => s.flagAfter_steps none owner b

theorem Declaration.flagAfter_stepsAll (owner : Option String) (b : Bool) : ∀ ds : List Declaration,
    flagAfter (Declaration.stepsAll owner ds) b = (b && !Declaration.declaresAny ds)
  | [] => (Bool.and_true b).symm
  | d :: ds => by
    rw [Declaration.stepsAll, flagAfter_append, d.flagAfter_steps, Declaration.flagAfter_stepsAll owner _ ds,
      Declaration.declaresAny, Bool.not_or, Bool.and_assoc]

end

def Enclosure.flag : List Enclosure → Bool
  | [] => false
  | e :: outer => !e.earlier && (e.params.isSome || Enclosure.flag outer)

theorem Enclosure.flag_pass (declares : Bool) (around : List Enclosure) :
    Enclosure.flag (Enclosure.pass declares around) = (Enclosure.flag around && !declares) := by
  cases around with
  | nil => rfl
  | cons e outer =>
    simp only [pass, flag, Bool.not_or]
    cases e.earlier <;> cases declares <;> simp

theorem Place.Within.flagAfter_before {pl q : Place} (h : pl.Within q)
    (hpl : flagAfter pl.before false = Enclosure.flag pl.around) :
    flagAfter q.before false = Enclosure.flag q.around := by
  -- What comes before the inner place takes the flag back where a function is declared in it.
  have hinner : ∀ part scope front declares back, (∀ b, flagAfter front b = (b && !declares)) →
      flagAfter (pl.inner part scope front declares back).before false =
        Enclosure.flag (pl.inner part scope front declares back).around := by
    intro part scope front declares back hfront
    rw [inner, flagAfter_append, hpl, hfront, Enclosure.flag_pass]
  cases h with
  | @block ds es d hpart =>
    refine hinner _ _ _ _ _ fun b => ?_
    rw [flagAfter_cons]
    exact Declaration.flagAfter_stepsAll none b ds
  | @forBody head body hpart =>
    have hsteady : Steady (enter "For Loop" :: head.steps ++ [enter "For Loop Body"]) :=
      steady_append.mpr ⟨steady_cons.mpr ⟨fun _ => rfl, head.steady_steps⟩, steady_cons.mpr ⟨fun _ => rfl, steady_nil⟩⟩
    exact hinner _ _ _ _ _ fun b => (hsteady.flagAfter_eq b).trans (Bool.and_true b).symm
  | ifThen hpart =>
    exact hinner _ _ _ _ _ fun b => ((steady_condition _ _).flagAfter_eq b).trans (Bool.and_true b).symm
  | ifYes hpart =>
    exact hinner _ _ _ _ _ fun b => ((steady_condition _ _).flagAfter_eq b).trans (Bool.and_true b).symm
  | @ifNo condition yes no hpart =>
    refine hinner _ _ _ _ _ fun b => ?_
    rw [flagAfter_append, flagAfter_cons, condition.steady_steps.flagAfter_eq]
    exact yes.flagAfter_steps _ _ b
  | whileBody hpart =>
    exact hinner _ _ _ _ _ fun b => ((steady_condition _ _).flagAfter_eq b).trans (Bool.and_true b).symm

theorem Place.InBody.flagAfter_before {pl q : Place} (h : pl.InBody q)
    (hpl : flagAfter pl.before false = Enclosure.flag pl.around) :
    flagAfter q.before false = Enclosure.flag q.around := by
  obtain @⟨name, params, ds, es, d, hpart⟩ := h
  have hopening : ∀ b, flagAfter (opening name params) b = (params.isSome || b) := by
    intro b
    simp only [opening, flagAfter_append, flagAfter_cons, Step.flag, Params.flagAfter_steps]
    rfl
  simp only [member, flagAfter_append, hpl, hopening, Declaration.flagAfter_stepsAll, Enclosure.flag]
  exact Bool.and_comm _ _

theorem Program.Contains.flagAfter_before {p : Program} {pl : Place} (h : p.Contains pl) :
    flagAfter pl.before false = Enclosure.flag pl.around := by
  induction h with
  | top hbody => rw [Declaration.flagAfter_stepsAll, Bool.false_and, Enclosure.flag]
  | within _ hq ih => exact hq.flagAfter_before ih
  | inBody _ hq ih => exact hq.flagAfter_before ih

def Place.Visits (pl : Place) (g : Stage) : Prop :=
  ∃ done rest, pl.ownSteps = done ++ rest ∧ execute (pl.before ++ done) .start = (none, g)

theorem Program.Contains.inReturn_eq {p : Program} {pl : Place} (h : p.Contains pl) {g : Stage} (hg : pl.Visits g) :
    g.inReturn = Enclosure.flag pl.around := by
  obtain ⟨done, rest, hown, hrun⟩ := hg
  have hsteady : Steady done := by
    have hall := pl.steady_ownSteps
    rw [hown] at hall
    exact (steady_append.mp hall).1
  have hstart : Stage.start.inReturn = false := rfl
  rw [execute_inReturn hrun, hstart, flagAfter_append, h.flagAfter_before, hsteady.flagAfter_eq]

end Syntax

end CompiScript
