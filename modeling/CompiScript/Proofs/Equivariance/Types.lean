import CompiScript.Proofs.Dependence.Sheltered
import CompiScript.Proofs.Equivariance.Tables

namespace CompiScript

open Syntax Step
variable {I : String → Prop} {ρ : Renaming I}

def AnalysisError.nameless : AnalysisError → Bool
  | alreadyDeclared _ _ => false
  | undeclared _ => false
  | undeclaredTarget _ _ => false
  | cannotAssign _ _ _ => false
  | cannotReturn _ _ _ => false
  | symbol (.duplicate _ _) => false
  | symbol (.notFound _) => false
  | _ => true

inductive AnalysisError.Renamed (r : String → String) : AnalysisError → AnalysisError → Prop
  | alreadyDeclared (what : Declared) (x : String) : Renamed r (.alreadyDeclared what x) (.alreadyDeclared what (r x))
  | undeclared (x : String) : Renamed r (.undeclared x) (.undeclared (r x))
  | undeclaredTarget (x : String) {title title' : String} (h : Retitled r title title') (level : Nat)
      (names : List String) :
      Renamed r (.undeclaredTarget x (Frame.text title level names))
        (.undeclaredTarget (r x) (Frame.text title' level (names.map r)))
  | cannotAssign (given : Option Ty) (x : String) (type : Option Ty) :
      Renamed r (.cannotAssign given x type) (.cannotAssign given (r x) type)
  | cannotReturn (given : Option Ty) (x : String) (type : Option Ty) :
      Renamed r (.cannotReturn given x type) (.cannotReturn given (r x) type)
  | nameless {e : AnalysisError} (h : e.nameless = true) : Renamed r e e

theorem AnalysisError.Renamed.kind_eq {r : String → String} {e e' : AnalysisError} (h : e.Renamed r e') :
    e'.kind = e.kind := by
  cases h <;> rfl

inductive Agree (r : String → String) {α : Type} (R : α → α → Prop) :
    Except AnalysisError α → Except AnalysisError α → Prop
  | ok {a a' : α} (h : R a a') : Agree r R (.ok a) (.ok a')
  | error {e e' : AnalysisError} (h : e.Renamed r e') : Agree r R (.error e) (.error e')

namespace Agree

variable {r : String → String} {α β : Type} {R : α → α → Prop} {S : β → β → Prop} {x x' : Except AnalysisError α}

theorem bind (h : Agree r R x x') {f f' : α → Except AnalysisError β}
    (hf : ∀ a a', R a a' → Agree r S (f a) (f' a')) : Agree r S (x >>= f) (x' >>= f') := by
  cases h with
  | ok h => exact hf _ _ h
  | error h => exact .error h

theorem map (h : Agree r R x x') {f f' : α → β} (hf : ∀ a a', R a a' → S (f a) (f' a')) :
    Agree r S (x.map f) (x'.map f') := by
  cases h with
  | ok h => exact .ok (hf _ _ h)
  | error h => exact .error h

end Agree

namespace Syntax

section Types

variable {α : Type} {operand operand' : α → Except AnalysisError (Option Ty)} {f : α → α} {tree : α → Tree}

theorem Chain.checkRest_rename {check : Kind → Option Ty → Except AnalysisError Unit}
    (hcheck : ∀ k t, Agree ρ.apply Eq (check k t) (check k t))
    (hf : ∀ a, (tree a).Within I → Agree ρ.apply Eq (operand a) (operand' (f a))) {rest : List (Kind × α)}
    (hrest : ∀ t ∈ Chain.restTrees tree rest, t.Within I) :
    Agree ρ.apply Eq (Chain.checkRest operand check rest)
      (Chain.checkRest operand' check (rest.map fun p => (p.1, f p.2))) := by
  induction rest with
  | nil => exact .ok rfl
  | cons p rest ih =>
    obtain ⟨k, a⟩ := p
    refine (hf a (hrest _ (.tail _ (.head _)))).bind ?_
    rintro t _ rfl
    refine (hcheck k t).bind ?_
    rintro _ _ rfl
    exact ih fun u hu => hrest u (.tail _ (.tail _ hu))

theorem Chain.type_rename {check : Option Ty → Kind → Option Ty → Except AnalysisError Unit}
    (hcheck : ∀ l k t, Agree ρ.apply Eq (check l k t) (check l k t)) (result : Ty) {s : Rule}
    (hf : ∀ a, (tree a).Within I → Agree ρ.apply Eq (operand a) (operand' (f a))) (c : Chain α)
    (hc : (c.tree s tree).Within I) :
    Agree ρ.apply Eq (c.type operand check result) ((c.map f).type operand' check result) := by
  obtain ⟨a, rest⟩ := c
  have ha := hf a (hc.child (.head _))
  cases rest with
  | nil => exact ha
  | cons p rest =>
    refine ha.bind ?_
    rintro left _ rfl
    refine (Chain.checkRest_rename (hcheck left) hf fun t ht => hc.child (.tail _ ht)).bind ?_
    rintro _ _ rfl
    exact .ok rfl

end Types

section Checks

variable {r : String → String} (left right : Option Ty) (k : Kind)

theorem checkArithmetic_agree (g : Standing) :
    Agree r Eq (checkArithmetic g left k right) (checkArithmetic g left k right) := by
  rw [checkArithmetic, Operand.checkArithmetic]
  repeat' split
  all_goals first | exact .ok rfl | exact .error (.nameless rfl)

theorem checkEquality_agree : Agree r Eq (checkEquality left k right) (checkEquality left k right) := by
  rw [checkEquality, Operand.checkEquality]
  repeat' split
  all_goals first | exact .ok rfl | exact .error (.nameless rfl)

theorem checkLogical_agree (operator : String) :
    Agree r Eq (checkLogical operator left k right) (checkLogical operator left k right) := by
  rw [checkLogical, Operand.checkLogical]
  split
  · exact .ok rfl
  · exact .error (.nameless rfl)

end Checks

section Standings

variable {g g' : Standing}

theorem nameType_rename (hscopes : g.scopes.Renamed ρ g'.scopes) {x : Name} (hx : I x.text) :
    Agree ρ.apply Eq (nameType g x) (nameType g' (x.rename ρ)) := by
  have htext : (x.rename ρ).text = ρ.apply x.text := ρ.total_eq hx
  rw [nameType, nameType, htext, hscopes.find hx]
  cases g.scopes.find? x.text (some .variables) with
  | none => exact .error (.undeclared x.text)
  | some s => exact .ok rfl

theorem Unary.type_rename (hscopes : g.scopes.Renamed ρ g'.scopes) (u : Unary) (hu : u.tree.Within I) :
    Agree ρ.apply Eq (u.type g) ((u.rename ρ).type g') := by
  cases u with
  | signed operator operand => exact .ok rfl
  | call c =>
    cases c with
    | function parts => exact .ok rfl
    | primary callee suffixes =>
      have hcallee : callee.tree.Within I := hu.only.child (.head _)
      cases callee with
      | name x => exact nameType_rename hscopes (Name.within (hcallee.child (.head _)))
      | inherited x => exact nameType_rename hscopes (Name.within (hcallee.child (.tail _ (.tail _ (.head _)))))
      | _ => exact .ok rfl

theorem LogicOr.type_rename (hprint : g'.inPrint = g.inPrint) (hreturn : g'.inReturn = g.inReturn)
    (hscopes : g.scopes.Renamed ρ g'.scopes) {e : LogicOr} (he : e.tree.Within I) :
    Agree ρ.apply Eq (e.type g) ((e.rename ρ).type g') := by
  have hcheck : checkArithmetic g' = checkArithmetic g := by
    funext left k right
    rw [checkArithmetic, checkArithmetic, hprint, hreturn]
  have harithmetic := fun left k right => checkArithmetic_agree (r := ρ.apply) left right k g
  have hlogical := fun operator left k right => checkLogical_agree (r := ρ.apply) left right k operator
  have hfactor : ∀ f : Factor, f.tree.Within I →
      Agree ρ.apply Eq (f.type g) (Factor.type g' (f.map (Unary.rename ρ))) := by
    intro f hf
    rw [Factor.type, Factor.type, hcheck]
    exact Chain.type_rename harithmetic _ (Unary.type_rename hscopes) f hf
  have hterm : ∀ t : Term, t.tree.Within I →
      Agree ρ.apply Eq (t.type g) (Term.type g' (t.map (Chain.map (Unary.rename ρ)))) := by
    intro t ht
    rw [Term.type, Term.type, hcheck]
    exact Chain.type_rename harithmetic _ hfactor t ht
  have hcomparison : ∀ c : Comparison, c.tree.Within I →
      Agree ρ.apply Eq (c.type g) (Comparison.type g' (c.map (Chain.map (Chain.map (Unary.rename ρ))))) := by
    intro c hc
    rw [Comparison.type, Comparison.type, hcheck]
    exact Chain.type_rename harithmetic _ hterm c hc
  have hequality := fun q => Chain.type_rename (s := .equality)
    (fun left k right => checkEquality_agree (r := ρ.apply) left right k) Ty.boolean hcomparison q
  have hand := fun a => Chain.type_rename (s := .logicAnd) (hlogical "and") Ty.boolean hequality a
  exact Chain.type_rename (hlogical "or") Ty.boolean hand e he

end Standings

end Syntax

end CompiScript
