import CompiScript.Proofs.Refusals.Trees
import CompiScript.Proofs.Uses.Sound

namespace CompiScript

open Step

theorem Lexeme.spelt_literal {k : Kind} (hk : k.spelling?.isSome = true) : (Lexeme.literal k).Spelt := by
  refine ⟨?_, ?_, ?_⟩
  · intro text htext
    have hspelling : k.spelling? = some text := htext
    rw [literal, hspelling]
    rfl
  · rintro (rfl : k = .identifier)
    cases hk
  · rintro (rfl : k = .eof)
    cases hk

namespace Syntax

def parenthesised (e : Tree) : Tree :=
  .node .primary [sign .openParen, e, sign .closeParen]

def signed (k : Kind) (u : Tree) : Tree :=
  .node .unary [sign k, u]

inductive Enclosed : Rule → Tree → Prop
  | parenthesised {e : Tree} (he : Spells (.rule .expression) [e]) : Enclosed .primary (parenthesised e)
  | signed {k : Kind} {u : Tree} (hk : k ∈ [Kind.bang, .minus]) (hu : Spells (.rule .unary) [u]) :
      Enclosed .unary (signed k u)
  | called {t : Tree} {suffixes : List Tree} (h : Enclosed .primary t)
      (hcall : Spells (.rule .call) [.node .call (t :: suffixes)]) : Enclosed .call (.node .call (t :: suffixes))
  | unary {t : Tree} (h : Enclosed .call t) : Enclosed .unary (.node .unary [t])
  | operand {t : Tree} (l : Level) (h : Enclosed l.operand t) : Enclosed l.rule (.node l.rule [t])
  | assignment {t : Tree} (h : Enclosed .logicOr t) : Enclosed .assignment (.node .assignment [t])
  | expression {t : Tree} (h : Enclosed .assignment t) : Enclosed .expression (.node .expression [t])

namespace Enclosed

variable {r : Rule} {t : Tree}

theorem exists_node (h : Enclosed r t) : ∃ cs, t = .node r cs := by
  cases h <;> exact ⟨_, rfl⟩

theorem spells (h : Enclosed r t) : Spells (.rule r) [t] := by
  induction h with
  | parenthesised he =>
    have hopen : Spells (.token .openParen) [sign .openParen] := .token rfl (Lexeme.spelt_literal rfl)
    have hclose : Spells (.token .closeParen) [sign .closeParen] := .token rfl (Lexeme.spelt_literal rfl)
    have hrow : Spells (.row [.token .openParen, .rule .expression, .token .closeParen]) _ :=
      .seq hopen (.seq he hclose)
    exact .rule (.right (.right (.right (.right (.right (.right (.right (.left hrow))))))))
  | @signed k u hk hu =>
    have hspelling : ∀ k ∈ [Kind.bang, .minus], k.spelling?.isSome = true := by decide
    exact .rule (.left (.seq (.oneOf hk (Lexeme.spelt_literal (hspelling k hk))) hu))
  | called h hcall => exact hcall
  | unary h ih => exact .rule (.right ih)
  | operand l h ih => cases l <;> exact .rule (.seq ih .nil)
  | assignment h ih => exact .rule (.right ih)
  | expression h ih => exact .rule (.left ih)

theorem visit_run (h : Enclosed r t) (g : Standing) : Runs g (t.visit .alone) (.ok (.type none)) g := by
  -- Parentheses and signs end the visit without a type, and the levels around them pass that on.
  induction h with
  | parenthesised he =>
    obtain ⟨cs, -, hcs⟩ := spells_rule.mp he
    rw [(List.cons.inj hcs).1]
    exact Primary.visit_run g (.group cs) .alone
  | @signed k u hk hu =>
    obtain ⟨cs, -, hcs⟩ := spells_rule.mp hu
    rw [(List.cons.inj hcs).1]
    exact Unary.visit_run g (.signed k cs) .alone
  | called h _ ih | unary h ih | assignment h ih | expression h ih =>
    obtain ⟨cs, rfl⟩ := h.exists_node
    rw [Tree.visit_node]
    exact .remark_bind (.remark_bind ih)
  | operand l h ih =>
    obtain ⟨cs, rfl⟩ := h.exists_node
    rw [Tree.visit_node, l.visitRule_eq]
    simp only [Analysis.visitLevel, List.map_cons, List.map_nil, Analysis.ofRule_child, Analysis.ofRule_nil,
      Tree.isRule_node, decide_true, if_true]
    exact .remark_bind (.remark_bind ih)

theorem hasType (h : Enclosed r t) (s : AnalysisState) : HasType s t none := by
  obtain ⟨s', hrun, -⟩ := h.visit_run s.standing s rfl
  exact ⟨s', hrun⟩

theorem chain_refused {s : AnalysisState} (hs : Plain s) (l : Level) {c : Chain Tree}
    (hc : Spells (.rule l.rule) [c.tree l.rule id]) (hrest : c.rest ≠ []) {a : Tree} (ha : a ∈ c.operands)
    (h : Enclosed l.operand a) : ∃ e s', ((c.tree l.rule id).visit .alone).runFrom s = (.error e, s') := by
  cases hrun : ((c.tree l.rule id).visit .alone).runFrom s with
  | mk result s' =>
    cases result with
    | error e => exact ⟨e, s', rfl⟩
    | ok v =>
      -- An accepted chain has operands of one type, and the enclosed one has none.
      obtain ⟨t, rfl⟩ := eq_type_of_visit hs l hc hrun
      obtain ⟨-, u, -, hfirst, hothers⟩ := (hasType_chain hs l hc hrest t).mp ⟨s', hrun⟩
      have hall : ∀ b ∈ c.operands, HasType s b (some u) :=
        List.forall_mem_cons.mpr ⟨hfirst, List.forall_mem_map.mpr hothers⟩
      cases (h.hasType s).unique (hall a ha)

theorem require_refused {e : Expression} (h : Enclosed .expression e.tree) (place : String) (g g' : Stage) :
    execute (e.steps ++ [require place]) g ≠ (none, g') := by
  intro hsteps
  obtain ⟨g₁, hvalue, hrequire⟩ := execute_append_ok hsteps
  obtain ⟨v, hrun, hv⟩ := (e.follows g).ok g₁ hvalue
  obtain ⟨hresult, -⟩ := hrun.unique (h.visit_run g.toStanding)
  have htype : g₁.type = none := Value.type.inj (hv.symm.trans (Except.ok.inj hresult))
  obtain ⟨g₂, hstep, -⟩ := execute_cons_ok hrequire
  rw [Step.run, htype] at hstep
  cases hstep

end Enclosed

mutual

def Statement.conditions : Statement → List Expression
  | .forLoop head body => head.condition.toList ++ body.conditions
  | .ifThen condition yes => condition :: yes.conditions
  | .ifElse condition yes no => condition :: yes.conditions ++ no.conditions
  | .whileLoop condition body => condition :: body.conditions
  | .block body => Declaration.conditionsAll body
  | .expression _ | .print _ | .giveBack _ => []

def Declaration.conditions : Declaration → List Expression
  | .function _ _ body => Declaration.conditionsAll body
  | .statement s => s.conditions
  | .classType _ | .variable _ => []

def Declaration.conditionsAll : List Declaration → List Expression
  | [] => []
  | d :: ds => d.conditions ++ Declaration.conditionsAll ds

end

def Program.conditions (p : Program) : List Expression :=
  Declaration.conditionsAll p.body

def Demands (steps : List Step) (e : Expression) : Prop :=
  ∃ place, e.steps ++ [require place] <:+: steps

namespace Demands

variable {steps : List Step} {e : Expression}

theorem left (h : Demands steps e) (after : List Step) : Demands (steps ++ after) e :=
  h.imp fun _ hinfix => hinfix.trans (List.prefix_append steps after).isInfix

theorem right (h : Demands steps e) (before : List Step) : Demands (before ++ steps) e :=
  h.imp fun _ hinfix => hinfix.trans (List.suffix_append before steps).isInfix

theorem here (e : Expression) (place : String) (after : List Step) : Demands (e.steps ++ require place :: after) e := by
  refine ⟨place, [], after, ?_⟩
  rw [List.nil_append, List.append_assoc]
  rfl

theorem not_enclosed (h : Demands steps e) {g g' : Stage} (hexecute : execute steps g = (none, g')) :
    ¬Enclosed .expression e.tree := by
  intro henclosed
  obtain ⟨place, before, after, rfl⟩ := h
  obtain ⟨g₂, hmost, -⟩ := execute_append_ok hexecute
  obtain ⟨g₁, -, hdemand⟩ := execute_append_ok hmost
  exact henclosed.require_refused place g₁ g₂ hdemand

end Demands

theorem ForHead.demands {head : ForHead} {e : Expression} (he : e ∈ head.condition.toList) :
    Demands head.steps e := by
  have hsteps : ∀ us : List Expression, Demands (headSteps (e :: us)) e
    | [] | _ :: _ => .here e _ _
  rw [ForHead.steps, Option.mem_toList.mp he]
  exact (hsteps _).right _

mutual

theorem Statement.demands (scope owner : Option String) : ∀ (s : Statement), ∀ e ∈ s.conditions,
    Demands (s.steps scope owner) e
  | .forLoop head body => by
    intro e he
    rw [Statement.conditions] at he
    rw [Statement.steps]
    rcases List.mem_append.mp he with he | he
    · exact (((ForHead.demands he).right [enter _]).left _).left _
    · exact (((body.demands none none e he).right [enter _]).right _).left _
  | .ifThen condition yes => by
    intro e he
    rw [Statement.conditions] at he
    rw [Statement.steps]
    rcases List.mem_cons.mp he with rfl | he
    · exact .here e _ _
    · exact ((yes.demands _ none e he).right [require _]).right _
  | .ifElse condition yes no => by
    intro e he
    rw [Statement.conditions] at he
    rw [Statement.steps]
    rcases List.mem_append.mp he with he | he
    · rcases List.mem_cons.mp he with rfl | he
      · exact (Demands.here e _ _).left _
      · exact (((yes.demands _ none e he).right [require _]).right _).left _
    · exact (no.demands _ none e he).right _
  | .whileLoop condition body => by
    intro e he
    rw [Statement.conditions] at he
    rw [Statement.steps]
    rcases List.mem_cons.mp he with rfl | he
    · exact .here e _ _
    · exact ((body.demands _ none e he).right [require _]).right _
  | .block body => by
    intro e he
    rw [Statement.conditions] at he
    rw [Statement.steps]
    exact ((Declaration.demandsAll none body e he).right [enter _]).left _
  | .expression _ | .print _ | .giveBack _ => by
    intro e he
    cases he

theorem Declaration.demands (owner : Option String) : ∀ (d : Declaration), ∀ e ∈ d.conditions,
    Demands (d.steps owner) e
  | .function name params body => by
    intro e he
    rw [Declaration.conditions] at he
    rw [Declaration.steps]
    exact (((Declaration.demandsAll (some name.text) body e he).right [enter _]).right _).left _
  | .statement s => by
    intro e he
    rw [Declaration.conditions] at he
    rw [Declaration.steps]
    exact s.demands none owner e he
  | .classType _ | .variable _ => by
    intro e he
    cases he

theorem Declaration.demandsAll (owner : Option String) : ∀ (ds : List Declaration), ∀ e ∈ Declaration.conditionsAll ds,
    Demands (Declaration.stepsAll owner ds) e
  | [] => by
    intro e he
    cases he
  | d :: ds => by
    intro e he
    rw [Declaration.conditionsAll] at he
    rw [Declaration.stepsAll]
    rcases List.mem_append.mp he with he | he
    · exact (d.demands owner e he).left _
    · exact (Declaration.demandsAll owner ds e he).right _

end

theorem Program.conditions_not_enclosed {p : Program} {s s' : AnalysisState} {v : Value}
    (h : s.analyse p.tree = (.ok v, s')) {e : Expression} (he : e ∈ p.conditions) : ¬Enclosed .expression e.tree := by
  have houtcome := outcome_program s p
  rw [outcome_of_analyse_ok h] at houtcome
  have hnone : (execute p.steps ⟨s.standing, none⟩).1 = none := (Prod.mk.inj houtcome).1.symm
  exact (Declaration.demandsAll none p.body e he).not_enclosed (Prod.ext hnone rfl)

def signType (k : Kind) : Ty :=
  if k = .minus then .num else .boolean

def SignTyped (s : AnalysisState) (k : Kind) (u : Tree) (t : Option Ty) : Prop :=
  (t = some (signType k) → HasType s (signed k u) t) ∧
    (t ≠ some (signType k) → ∃ e s', ((signed k u).visit .alone).runFrom s = (.error e, s'))

theorem Enclosed.not_signTyped {s : AnalysisState} {k : Kind} {u : Tree} (h : Enclosed .unary (Syntax.signed k u))
    (t : Option Ty) : ¬SignTyped s k u t := by
  rintro ⟨hright, hwrong⟩
  by_cases ht : t = some (signType k)
  · have hnone := (h.hasType s).unique (hright ht)
    rw [ht] at hnone
    cases hnone
  · obtain ⟨e, s', hrefused⟩ := hwrong ht
    obtain ⟨s'', haccepted⟩ := h.hasType s
    cases (Prod.mk.inj (hrefused.symm.trans haccepted)).1

/-- What is enclosed is accepted in every state, without a type and without an effect. So parentheses keep the type and
the effect of an expression exactly if it has none of both, a sign never has the type of its operand and never refuses
it, and outside of `print` and of functions with parameters no operator has an enclosed operand. No condition in an
accepted program is enclosed. -/
theorem enclosed_untyped (s : AnalysisState) :
    (∀ r t, Enclosed r t → Spells (.rule r) [t] ∧
      ∃ s', (t.visit .alone).runFrom s = (.ok (.type none), s') ∧ s'.standing = s.standing) ∧
    (∀ e t s₁, Spells (.rule .expression) [e] → (e.visit .alone).runFrom s = (.ok (.type t), s₁) →
      ((∃ s', ((parenthesised e).visit .alone).runFrom s = (.ok (.type t), s') ∧ s'.standing = s₁.standing) ↔
        t = none ∧ s₁.standing = s.standing)) ∧
    (∀ k u t, k ∈ [Kind.bang, .minus] → Spells (.rule .unary) [u] → ¬SignTyped s k u t) ∧
    (Plain s → ∀ (l : Level) (c : Chain Tree), Spells (.rule l.rule) [c.tree l.rule id] → c.rest ≠ [] →
      (∃ a ∈ c.operands, Enclosed l.operand a) →
        ∃ e s', ((c.tree l.rule id).visit .alone).runFrom s = (.error e, s')) ∧
    ∀ (p : Program) v s', s.analyse p.tree = (.ok v, s') → ∀ e ∈ p.conditions, ¬Enclosed .expression e.tree := by
  refine ⟨?_, ?_, ?_, ?_, ?_⟩
  · intro r t h
    exact ⟨h.spells, h.visit_run s.standing s rfl⟩
  · intro e t s₁ he _
    obtain ⟨s', hrun, hs'⟩ := (Enclosed.parenthesised he).visit_run s.standing s rfl
    constructor
    · rintro ⟨s'', hkept, hs''⟩
      obtain ⟨hvalue, rfl⟩ := Prod.mk.inj (hkept.symm.trans hrun)
      exact ⟨Value.type.inj (Except.ok.inj hvalue), hs''.symm.trans hs'⟩
    · rintro ⟨rfl, hs₁⟩
      exact ⟨s', hrun, hs'.trans hs₁.symm⟩
  · intro k u t hk hu
    exact (Enclosed.signed hk hu).not_signTyped t
  · rintro hs l c hc hrest ⟨a, ha, h⟩
    exact h.chain_refused hs l hc hrest ha
  · intro p v s' hanalyse e he
    exact Program.conditions_not_enclosed hanalyse he

namespace Truth

def value : Expression :=
  .ofPrimary (.truth true)

def condition : Expression :=
  .ofPrimary (.group [(Assignment.operation (.ofUnary (.call (.primary (.truth true) [])))).tree])

def program : Program :=
  ⟨[.statement (.ifThen condition (.block []))]⟩

theorem value_spells : Spells (.rule .expression) [value.tree] := by
  have hparse : (parseText .expression "true").toOption.map Derived.tree = some value.tree := by decide +kernel
  obtain ⟨d, hd, htree⟩ := exists_derived_of_tree hparse
  exact htree ▸ parseText_spells hd

theorem condition_enclosed : Enclosed .expression condition.tree := by
  have hgroup : Enclosed .primary (parenthesised value.tree) := .parenthesised value_spells
  have hcall : Enclosed .call (.node .call [parenthesised value.tree]) :=
    .called hgroup (.rule (.left (.seq hgroup.spells .nil)))
  have hlogicOr : Enclosed .logicOr _ :=
    .operand .logicOr (.operand .logicAnd (.operand .equality (.operand .comparison (.operand .term (.operand .factor
      (.unary hcall))))))
  exact .expression (.assignment hlogicOr)

end Truth

theorem parenthesised_truth_refused :
    HasType .start Truth.value.tree (some .boolean) ∧ ¬HasType .start (parenthesised Truth.value.tree) (some .boolean) ∧
      ∃ d, parseText .program "if ((true)) { }" = .ok d ∧ ∀ v s', AnalysisState.start.analyse d.tree ≠ (.ok v, s') := by
  obtain ⟨henclosed, -, -, -, hprogram⟩ := enclosed_untyped .start
  have htype : HasType .start Truth.value.tree (some .boolean) := by
    obtain ⟨v, hrun, rfl⟩ := (Truth.value.follows .start).ok _ rfl
    obtain ⟨s', hvisit, -⟩ := hrun .start rfl
    exact ⟨s', hvisit⟩
  refine ⟨htype, ?_, ?_⟩
  · intro h
    obtain ⟨-, s', hvisit, -⟩ := henclosed .primary _ (.parenthesised Truth.value_spells)
    cases h.unique ⟨s', hvisit⟩
  · obtain ⟨d, hd, htree⟩ := exists_derived_tree "if ((true)) { }" Truth.program (by decide +kernel)
    refine ⟨d, hd, fun v s' hanalyse => ?_⟩
    rw [← htree] at hanalyse
    exact hprogram Truth.program v s' hanalyse Truth.condition List.mem_cons_self Truth.condition_enclosed

end Syntax

end CompiScript
