import CompiScript.Proofs.Effects.Proper
import CompiScript.Proofs.Failures.Fits

namespace CompiScript

open Syntax

namespace Syntax

def Assignment.targets : Assignment → List String
  | assign _ target value => target.text :: value.targets
  | operation _ => []

def Expression.targets : Expression → List String
  | assignment a => a.targets
  | function _ => []

def VarDecl.AssignsItself (v : VarDecl) : Prop :=
  ∃ e, v.value = some e ∧ v.name.text ∈ e.targets

instance (v : VarDecl) : Decidable v.AssignsItself :=
  match hv : v.value with
  | none => .isFalse fun ⟨_, he, _⟩ => nomatch hv.symm.trans he
  | some e => decidable_of_iff (v.name.text ∈ e.targets)
      ⟨fun h => ⟨e, hv, h⟩, fun ⟨_, he, h⟩ => Option.some.inj (hv.symm.trans he) ▸ h⟩

def ForInit.varDecls : ForInit → List VarDecl
  | .variable v => [v]
  | expression _ => []
  | nothing => []

mutual

def Statement.varDecls : Statement → List VarDecl
  | .expression _ => []
  | .forLoop head body => head.init.varDecls ++ body.varDecls
  | .ifThen _ yes => yes.varDecls
  | .ifElse _ yes no => yes.varDecls ++ no.varDecls
  | .print _ => []
  | .giveBack _ => []
  | .whileLoop _ body => body.varDecls
  | .block body => Declaration.varDeclsAll body

def Declaration.varDecls : Declaration → List VarDecl
  | .classType _ => []
  | .function _ _ body => Declaration.varDeclsAll body
  | .variable v => [v]
  | .statement s => s.varDecls

def Declaration.varDeclsAll : List Declaration → List VarDecl
  | [] => []
  | d :: ds => d.varDecls ++ Declaration.varDeclsAll ds

end

def Program.varDecls (p : Program) : List VarDecl :=
  Declaration.varDeclsAll p.body

end Syntax

section Initialised

def Initialised (vs : List VarDecl) (steps : List Step) : Prop :=
  ∀ before x after, steps = before ++ .initialise x :: after →
    ∃ v ∈ vs, ∃ e front, v.name.text = x ∧ v.value = some e ∧ before = front ++ .declare .variable x :: e.steps

variable {vs ws : List VarDecl} {steps more : List Step}

theorem initialised_of_not_mem (vs : List VarDecl) (h : ∀ x, Step.initialise x ∉ steps) : Initialised vs steps := by
  rintro before x after rfl
  exact absurd (List.mem_append_right before (.head after)) (h x)

theorem Initialised.mono (h : Initialised vs steps) (hsub : ∀ v ∈ vs, v ∈ ws) : Initialised ws steps := by
  intro before x after hsplit
  obtain ⟨v, hv, hrest⟩ := h before x after hsplit
  exact ⟨v, hsub v hv, hrest⟩

theorem Initialised.append (h : Initialised vs steps) (hmore : Initialised ws more) :
    Initialised (vs ++ ws) (steps ++ more) := by
  intro before x after hsplit
  rcases List.append_eq_append_iff.mp hsplit with ⟨inner, hbefore, hinner⟩ | ⟨inner, hsteps, hinner⟩
  · obtain ⟨v, hv, e, front, hx, he, hfront⟩ := hmore inner x after hinner
    refine ⟨v, List.mem_append_right vs hv, e, steps ++ front, hx, he, ?_⟩
    rw [hbefore, hfront, List.append_assoc]
  · cases inner with
    | nil =>
      -- The initialisation would be the very first of the later steps, with nothing before it.
      obtain ⟨v, hv, e, front, hx, he, hfront⟩ := hmore [] x after hinner.symm
      simp at hfront
    | cons s inner =>
      obtain ⟨rfl, -⟩ := List.cons.inj hinner
      obtain ⟨v, hv, hrest⟩ := h before x inner hsteps
      exact ⟨v, List.mem_append_left ws hv, hrest⟩

theorem Initialised.append_right (h : Initialised vs steps) (hmore : ∀ x, Step.initialise x ∉ more) :
    Initialised vs (steps ++ more) :=
  (h.append (initialised_of_not_mem [] hmore)).mono (by simp)

theorem Initialised.append_left (h : Initialised vs steps) (hmore : ∀ x, Step.initialise x ∉ more) :
    Initialised vs (more ++ steps) :=
  ((initialised_of_not_mem [] hmore).append h).mono (by simp)

theorem Initialised.cons (h : Initialised vs steps) {s : Step} (hs : ∀ x, s ≠ .initialise x) :
    Initialised vs (s :: steps) := by
  have hsingle : ∀ x, Step.initialise x ∉ [s] := fun x hx => hs x (List.mem_singleton.mp hx).symm
  exact h.append_left hsingle

end Initialised

namespace Syntax

open Step

theorem Expression.initialise_not_mem (e : Expression) (x : String) : initialise x ∉ e.steps :=
  fun h => nomatch e.isOperation_of_mem h

theorem headSteps_initialise_not_mem (es : List Expression) (x : String) : initialise x ∉ headSteps es := by
  match es with
  | [] => simp [headSteps]
  | [c] => simp [headSteps, c.initialise_not_mem]
  | c :: u :: _ => simp [headSteps, c.initialise_not_mem, u.initialise_not_mem]

theorem VarDecl.initialised (v : VarDecl) : Initialised [v] v.steps := by
  obtain ⟨name, value⟩ := v
  cases value with
  | none => exact initialised_of_not_mem _ (by simp [steps])
  | some e =>
    intro before x after hsplit
    rw [steps] at hsplit
    rcases List.eq_nil_or_concat after with rfl | ⟨after, last, rfl⟩
    · obtain ⟨hbefore, hlast⟩ := List.append_inj' hsplit rfl
      cases hlast
      exact ⟨_, .head _, e, [], rfl, rfl, hbefore.symm⟩
    · -- Only the last step of a declaration initialises.
      have hsnoc : (declare .variable name.text :: e.steps) ++ [initialise name.text] =
          (before ++ initialise x :: after) ++ [last] :=
        hsplit.trans (by simp)
      have hfront : declare .variable name.text :: e.steps = before ++ initialise x :: after :=
        (List.append_inj' hsnoc rfl).1
      have hmem : initialise x ∈ declare .variable name.text :: e.steps := by
        rw [hfront]
        exact List.mem_append_right before (.head after)
      simp [e.initialise_not_mem] at hmem

theorem ForHead.initialised (h : ForHead) : Initialised h.init.varDecls h.steps := by
  obtain ⟨init, condition, update⟩ := h
  refine Initialised.append_right ?_ (headSteps_initialise_not_mem _)
  cases init with
  | «variable» v => exact v.initialised
  | expression e => exact initialised_of_not_mem _ e.initialise_not_mem
  | nothing => exact initialised_of_not_mem _ (by simp [ForInit.steps])

theorem Params.initialise_not_mem (f : String) (params : Option Params) (x : String) :
    initialise x ∉ Params.steps f params := by
  cases params <;> simp [Params.steps]

mutual

theorem Statement.initialised (scope owner : Option String) : ∀ s : Statement,
    Initialised s.varDecls (s.steps scope owner)
  | .expression e => initialised_of_not_mem _ e.initialise_not_mem
  | .forLoop head body =>
    ((head.initialised.cons (by simp)).append ((body.initialised none none).cons (by simp))).append_right (by simp)
  | .ifThen condition yes => ((yes.initialised _ none).cons (by simp)).append_left condition.initialise_not_mem
  | .ifElse condition yes no =>
    (((yes.initialised _ none).cons (by simp)).append_left condition.initialise_not_mem).append (no.initialised _ none)
  | .print e => initialised_of_not_mem _ (by simp [Statement.steps, e.initialise_not_mem])
  | .giveBack none => initialised_of_not_mem _ (by simp [Statement.steps, returnSteps])
  | .giveBack (some e) => initialised_of_not_mem _ (by simp [Statement.steps, returnSteps, e.initialise_not_mem])
  | .whileLoop condition body => ((body.initialised _ none).cons (by simp)).append_left condition.initialise_not_mem
  | .block body => ((Declaration.initialisedAll none body).cons (by simp)).append_right (by simp)

theorem Declaration.initialised (owner : Option String) : ∀ d : Declaration,
    Initialised d.varDecls (d.steps owner)
  | .classType _ => initialised_of_not_mem _ nofun
  | .function name params body => by
    have hhead : ∀ x, initialise x ∉ declare .function name.text :: enter ("Function '" ++ name.text ++ "'") ::
        Params.steps name.text params := by
      simp [Params.initialise_not_mem]
    exact (((Declaration.initialisedAll (some name.text) body).cons (by simp)).append_left hhead).append_right (by simp)
  | .variable v => v.initialised
  | .statement s => s.initialised none owner

theorem Declaration.initialisedAll (owner : Option String) : ∀ ds : List Declaration,
    Initialised (Declaration.varDeclsAll ds) (Declaration.stepsAll owner ds)
  | [] => initialised_of_not_mem _ nofun
  | d :: ds => (d.initialised owner).append (Declaration.initialisedAll owner ds)

end

end Syntax

end CompiScript
