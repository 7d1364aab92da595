import CompiScript.Proofs.Steps

namespace CompiScript

open Syntax Step

def Tree.identifiers (t : Tree) : List String :=
  (t.leaves.filter fun x => x.kind = .identifier).map Lexeme.text

variable {I : String → Prop}

def Tree.Within (I : String → Prop) (t : Tree) : Prop :=
  ∀ x ∈ t.identifiers, I x

namespace Tree

theorem mem_leavesAll {t : Tree} {cs : List Tree} (ht : t ∈ cs) {x : Lexeme} (hx : x ∈ t.leaves) :
    x ∈ leavesAll cs := by
  induction cs with
  | nil => cases ht
  | cons c cs ih =>
    rw [leavesAll]
    rcases List.mem_cons.mp ht with rfl | hmem
    · exact List.mem_append_left _ hx
    · exact List.mem_append_right _ (ih hmem)

theorem mem_identifiers {t : Tree} {x : String} : x ∈ t.identifiers ↔ ⟨.identifier, x⟩ ∈ t.leaves := by
  simp only [identifiers, List.mem_map, List.mem_filter, decide_eq_true_eq]
  constructor
  · rintro ⟨⟨k, text⟩, ⟨hmem, hkind⟩, rfl⟩
    cases hkind
    exact hmem
  · intro hmem
    exact ⟨⟨.identifier, x⟩, ⟨hmem, rfl⟩, rfl⟩

theorem Within.child {r : Rule} {cs : List Tree} (h : (node r cs).Within I) {t : Tree} (ht : t ∈ cs) :
    t.Within I := by
  intro x hx
  apply h
  rw [mem_identifiers] at hx ⊢
  exact mem_leavesAll ht hx

theorem Within.only {r : Rule} {t : Tree} (h : (node r [t]).Within I) : t.Within I :=
  h.child (.head _)

theorem Within.of_leaves {t u : Tree} (h : t.Within I) (hleaves : u.leaves = t.leaves) : u.Within I := by
  intro x hx
  rw [mem_identifiers, hleaves, ← mem_identifiers] at hx
  exact h x hx

end Tree

namespace Syntax

theorem Name.within {x : Name} (h : x.tree.Within I) : I x.text :=
  h x.text (.head _)

section Types

variable {α : Type} {operand operand' : α → Except AnalysisError (Option Ty)} {tree : α → Tree} {r : Rule}

theorem Chain.checkRest_congr (h : ∀ a, (tree a).Within I → operand a = operand' a)
    (check : Kind → Option Ty → Except AnalysisError Unit) {rest : List (Kind × α)}
    (hrest : ∀ t ∈ Chain.restTrees tree rest, t.Within I) :
    Chain.checkRest operand check rest = Chain.checkRest operand' check rest := by
  induction rest with
  | nil => rfl
  | cons p rest ih =>
    obtain ⟨k, a⟩ := p
    have ha : operand a = operand' a := h a (hrest _ (.tail _ (.head _)))
    rw [Chain.checkRest, Chain.checkRest, ha, ih fun t ht => hrest t (.tail _ (.tail _ ht))]

theorem Chain.type_congr (h : ∀ a, (tree a).Within I → operand a = operand' a)
    (check : Option Ty → Kind → Option Ty → Except AnalysisError Unit) (result : Ty) (c : Chain α)
    (hc : (c.tree r tree).Within I) : c.type operand check result = c.type operand' check result := by
  obtain ⟨a, rest⟩ := c
  have ha : operand a = operand' a := h a (hc.child (.head _))
  have hrest : ∀ check, Chain.checkRest operand check rest = Chain.checkRest operand' check rest :=
    fun check => Chain.checkRest_congr h check fun t ht => hc.child (.tail _ ht)
  cases rest with
  | nil => exact ha
  | cons p rest => simp only [Chain.type, ha, hrest]

end Types

section Standings

variable {g h : Standing}

theorem nameType_congr {x : Name}
    (hx : g.scopes.find? x.text (some .variables) = h.scopes.find? x.text (some .variables)) : nameType g x = nameType h x := by
  rw [nameType, nameType, hx]

theorem Unary.type_congr
    (hfind : ∀ x, I x → g.scopes.find? x (some .variables) = h.scopes.find? x (some .variables)) (u : Unary)
    (hu : u.tree.Within I) : u.type g = u.type h := by
  cases u with
  | signed operator operand => rfl
  | call c =>
    cases c with
    | function parts => rfl
    | primary callee suffixes =>
      have hcallee : callee.tree.Within I := hu.only.child (.head _)
      cases callee with
      | name x => exact nameType_congr (hfind x.text (Name.within (hcallee.child (.head _))))
      | inherited x =>
        exact nameType_congr (hfind x.text (Name.within (hcallee.child (.tail _ (.tail _ (.head _))))))
      | _ => rfl

theorem LogicOr.type_congr (hprint : g.inPrint = h.inPrint) (hreturn : g.inReturn = h.inReturn)
    (hfind : ∀ x, I x → g.scopes.find? x (some .variables) = h.scopes.find? x (some .variables)) {e : LogicOr}
    (he : e.tree.Within I) : e.type g = e.type h := by
  have hcheck : checkArithmetic g = checkArithmetic h := by
    funext left k right
    rw [checkArithmetic, checkArithmetic, hprint, hreturn]
  have hfactor : ∀ f : Factor, f.tree.Within I → f.type g = f.type h := by
    intro f hf
    rw [Factor.type, Factor.type, hcheck]
    exact Chain.type_congr (Unary.type_congr hfind) _ _ f hf
  have hterm : ∀ t : Term, t.tree.Within I → t.type g = t.type h := by
    intro t ht
    rw [Term.type, Term.type, hcheck]
    exact Chain.type_congr hfactor _ _ t ht
  have hcomparison : ∀ c : Comparison, c.tree.Within I → c.type g = c.type h := by
    intro c hc
    rw [Comparison.type, Comparison.type, hcheck]
    exact Chain.type_congr hterm _ _ c hc
  have hequality : ∀ q : Equality, q.tree.Within I → q.type g = q.type h :=
    Chain.type_congr hcomparison _ _
  have hand : ∀ a : LogicAnd, a.tree.Within I → a.type g = a.type h :=
    Chain.type_congr hequality _ _
  exact Chain.type_congr hand _ _ e he

end Standings

end Syntax

def Step.Within (I : String → Prop) : Step → Prop
  | declare _ x => I x
  | bind f keys => I f ∧ ∀ x ∈ keys, I x
  | aim x => I x
  | weigh e => e.tree.Within I
  | assign x => I x
  | initialise x => I x
  | giveBack owner _ => ∀ f, owner = some f → I f
  | _ => True

def Confined (I : String → Prop) (steps : List Step) : Prop :=
  ∀ s ∈ steps, s.Within I

section Confined

variable {s : Step} {before after : List Step}

theorem confined_nil : Confined I [] :=
  fun _ hs => nomatch hs

theorem Confined.cons (h : Confined I after) (hs : s.Within I) : Confined I (s :: after) :=
  List.forall_mem_cons.mpr ⟨hs, h⟩

theorem Confined.enter (h : Confined I after) (scope : String) : Confined I (Step.enter scope :: after) :=
  h.cons trivial

theorem Confined.append (hbefore : Confined I before) (hafter : Confined I after) : Confined I (before ++ after) :=
  List.forall_mem_append.mpr ⟨hbefore, hafter⟩

end Confined

namespace Syntax

theorem Assignment.confined (a : Assignment) (h : a.tree.Within I) : Confined I a.steps := by
  induction a with
  | operation e => exact confined_nil.cons h.only
  | assign object target value ih =>
    have htarget : I target.text := Name.within (h.child (List.mem_append_right _ (.head _)))
    have hvalue : value.tree.Within I := h.child (List.mem_append_right _ (.tail _ (.tail _ (.head _))))
    exact ((ih hvalue).cons (s := .aim _) htarget).append (confined_nil.cons htarget)

theorem Expression.confined (e : Expression) (h : e.tree.Within I) : Confined I e.steps := by
  cases e with
  | assignment a => exact a.confined h.only
  | function parts =>
    have hleaves : (LogicOr.ofUnary (.call (.function parts))).tree.leaves =
        (Expression.function parts).tree.leaves := by
      simp [LogicOr.ofUnary, LogicOr.tree, LogicAnd.tree, Equality.tree, Comparison.tree, Term.tree, Factor.tree,
        Chain.tree, Chain.restTrees, Unary.tree, Call.tree, Expression.tree, Tree.leaves, Tree.leavesAll]
    exact confined_nil.cons (h.of_leaves hleaves)

theorem Expression.confined_condition (e : Expression) (he : e.tree.Within I) (place : String) {after : List Step}
    (h : Confined I after) : Confined I (e.steps ++ require place :: after) :=
  (e.confined he).append (h.cons trivial)

theorem VarDecl.confined (v : VarDecl) (h : v.tree.Within I) : Confined I v.steps := by
  obtain ⟨name, value⟩ := v
  have hname : I name.text := Name.within (h.child (.tail _ (.head _)))
  cases value with
  | none => exact confined_nil.cons hname
  | some e =>
    have he : e.tree.Within I := h.child (.tail _ (.tail _ (.tail _ (.head _))))
    exact ((e.confined he).cons (s := .declare _ _) hname).append (confined_nil.cons hname)

theorem headSteps_confined (es : List Expression) (h : ∀ e ∈ es, e.tree.Within I) : Confined I (headSteps es) := by
  match es with
  | [] => exact confined_nil
  | [c] => exact c.confined_condition (h c (.head _)) _ confined_nil
  | c :: u :: _ => exact c.confined_condition (h c (.head _)) _ (u.confined (h u (.tail _ (.head _))))

theorem ForHead.confined (head : ForHead) (h : ∀ t ∈ head.trees, t.Within I) : Confined I head.steps := by
  obtain ⟨init, condition, update⟩ := head
  simp only [ForHead.trees, List.forall_mem_append] at h
  obtain ⟨⟨⟨⟨hinit, hcondition⟩, -⟩, hupdate⟩, -⟩ := h
  have hinit : init.tree.Within I := hinit _ (.tail _ (.tail _ (.head _)))
  refine Confined.append ?_ (headSteps_confined _ ?_)
  · cases init with
    | «variable» v => exact v.confined hinit
    | expression e => exact e.confined (hinit.child (.head _))
    | nothing => exact confined_nil
  · intro e he
    rcases List.mem_append.mp he with hmem | hmem
    · have hsome : condition = some e := Option.mem_toList.mp hmem
      rw [hsome] at hcondition
      exact hcondition _ (.head _)
    · have hsome : update = some e := Option.mem_toList.mp hmem
      rw [hsome] at hupdate
      exact hupdate _ (.head _)

theorem Params.within_of_mem {ps : Params} (h : ps.tree.Within I) {x : Name} (hx : x ∈ ps.names) : I x.text := by
  have hrest : ∀ xs : List Name, x ∈ xs → x.tree ∈ restTrees xs := by
    intro xs hmem
    induction xs with
    | nil => cases hmem
    | cons y xs ih =>
      rcases List.mem_cons.mp hmem with rfl | htail
      · exact .tail _ (.head _)
      · exact .tail _ (.tail _ (ih htail))
  rcases List.mem_cons.mp hx with rfl | hmem
  · exact Name.within (h.child (.head _))
  · exact Name.within (h.child (.tail _ (hrest _ hmem)))

theorem Params.confined {f : String} (hf : I f) (params : Option Params) (h : ∀ t ∈ Params.trees params, t.Within I) :
    Confined I (Params.steps f params) := by
  cases params with
  | none => exact confined_nil
  | some ps =>
    have hnames : ∀ x ∈ ps.names, I x.text := fun x hx => Params.within_of_mem (h _ (.head _)) hx
    refine Confined.append ?_ (confined_nil.cons ⟨hf, List.forall_mem_map.mpr hnames⟩)
    intro s hs
    obtain ⟨x, hx, rfl⟩ := List.mem_map.mp hs
    exact hnames x hx

mutual

theorem Statement.confined (scope owner : Option String) (howner : ∀ f, owner = some f → I f) :
    ∀ s : Statement, s.tree.Within I → Confined I (s.steps scope owner)
  | .expression e, h => e.confined (h.only.child (.head _))
  | .forLoop head body, h => by
    have hhead : Confined I head.steps := head.confined fun t ht => h.only.child (List.mem_append_left _ ht)
    have hbody := Statement.confined none none nofun body (h.only.child (List.mem_append_right _ (.head _)))
    have hends : Confined I [exit, exit] := by simp [Confined, Step.Within]
    exact ((hhead.enter _).append (hbody.enter _)).append hends
  | .ifThen condition yes, h => by
    have hcondition : condition.tree.Within I := h.only.child (by simp)
    exact condition.confined_condition hcondition _ (Statement.confined _ none nofun yes (h.only.child (by simp)))
  | .ifElse condition yes no, h => by
    have hcondition : condition.tree.Within I := h.only.child (by simp)
    have hyes := Statement.confined (some "If Block") none nofun yes (h.only.child (by simp))
    have hno := Statement.confined (some "Else Block") none nofun no (h.only.child (by simp))
    exact (condition.confined_condition hcondition _ hyes).append hno
  | .print e, h => by
    have he := e.confined (h.only.child (.tail _ (.head _)))
    have hbegin : Confined I (beginPrint :: e.steps) := he.cons trivial
    exact hbegin.append (confined_nil.cons trivial)
  | .giveBack none, _ => confined_nil.cons howner
  | .giveBack (some e), h => by
    have he : e.tree.Within I := h.only.child (by simp [Expression.trees])
    exact (e.confined he).append (confined_nil.cons howner)
  | .whileLoop condition body, h => by
    have hcondition : condition.tree.Within I := h.only.child (by simp)
    exact condition.confined_condition hcondition _ (Statement.confined _ none nofun body (h.only.child (by simp)))
  | .block body, h => by
    have hbody := Declaration.confinedAll none nofun body
      fun t ht => h.only.child (.tail _ (List.mem_append_left _ ht))
    exact (hbody.enter _).append (confined_nil.cons trivial)

theorem Declaration.confined (owner : Option String) (howner : ∀ f, owner = some f → I f) :
    ∀ d : Declaration, d.tree.Within I → Confined I (d.steps owner)
  | .classType _, _ => confined_nil
  | .function name params body, h => by
    have hparts := h.only.child (t := .node .function _) (.tail _ (.head _))
    have hname : I name.text := Name.within (hparts.child (by simp))
    have hparams := Params.confined hname params fun t ht => hparts.child (by simp [ht])
    have hblock := hparts.child (t := .node .block _) (List.mem_append_right _ (.tail _ (.head _)))
    have hbody := Declaration.confinedAll (some name.text) (fun f hf => Option.some.inj hf ▸ hname) body
      fun t ht => hblock.child (.tail _ (List.mem_append_left _ ht))
    have hdeclare : Confined I (declare .function name.text :: enter ("Function '" ++ name.text ++ "'") ::
        Params.steps name.text params) :=
      (hparams.enter _).cons hname
    have hends : Confined I [exit, exit, unbind] := by simp [Confined, Step.Within]
    exact (hdeclare.append (hbody.enter _)).append hends
  | .variable v, h => v.confined h.only
  | .statement s, h => Statement.confined none owner howner s h.only

theorem Declaration.confinedAll (owner : Option String) (howner : ∀ f, owner = some f → I f) :
    ∀ ds : List Declaration, (∀ t ∈ Declaration.trees ds, t.Within I) → Confined I (Declaration.stepsAll owner ds)
  | [], _ => confined_nil
  | d :: ds, h => by
    have hd := Declaration.confined owner howner d (h _ (.head _))
    exact hd.append (Declaration.confinedAll owner howner ds fun t ht => h t (.tail _ ht))

end

theorem Declaration.confined_global (ds : List Declaration) (h : ∀ t ∈ Declaration.trees ds, t.Within I) :
    Confined I (Declaration.stepsAll none ds) :=
  Declaration.confinedAll none (fun _ hf => by cases hf) ds h

theorem Program.confined (p : Program) (h : p.tree.Within I) : Confined I p.steps :=
  Declaration.confined_global p.body fun _ ht => h.child (List.mem_append_left _ ht)

end Syntax

end CompiScript
