import CompiScript.Analysis.Operand
import CompiScript.Analysis.State
import CompiScript.Proofs.Syntax

/-!
The analysis of a program as a plain list of steps. Which steps are taken, and in which order, is
said by the syntax alone; a step changes the stage it is taken on or refuses, and the first refusal
ends the run.
-/

namespace CompiScript

structure Standing where
  scopes : Scopes
  inPrint : Bool
  inReturn : Bool

def AnalysisState.standing (s : AnalysisState) : Standing :=
  ⟨s.scopes, s.inPrint, s.inReturn⟩

structure Stage extends Standing where
  type : Option Ty

def Stage.start : Stage :=
  ⟨AnalysisState.start.standing, none⟩

namespace Declared

def category : Declared → Category
  | .variable => .variables
  | .parameter => .variables
  | .function => .functions

def entity : Declared → Entity
  | .variable => .variable none
  | .parameter => .variable none
  | .function => .function (some Ty.nil) none

end Declared

namespace Scopes

def setReturns (s : Scopes) (name : String) (type : Option Ty) : Scopes :=
  s.withChain (changeIn name .functions (fun f => f.setReturns type) s.chain)

def setParams (s : Scopes) (name : String) (keys : List String) : Scopes :=
  s.withChain (changeIn name .functions (fun f => f.setParams keys) s.chain)

end Scopes

section Bind

variable {ε α β : Type} {x : Except ε α} {f : α → Except ε β}

theorem bind_eq_ok {b : β} (h : x >>= f = .ok b) : ∃ a, x = .ok a ∧ f a = .ok b := by
  cases x with
  | ok a => exact ⟨a, rfl, h⟩
  | error e => cases h

theorem bind_eq_error {e : ε} (h : x >>= f = .error e) :
    x = .error e ∨ ∃ a, x = .ok a ∧ f a = .error e := by
  cases x with
  | ok a => exact .inr ⟨a, rfl, h⟩
  | error e' => cases h; exact .inl rfl

end Bind

namespace Syntax

def word (k : Kind) : String :=
  (Lexeme.literal k).text

def nameType (g : Standing) (x : Name) : Except AnalysisError (Option Ty) :=
  match g.scopes.find? x.text (some .variables) with
  | none => .error (.undeclared x.text)
  | some s => .ok s.type?

def Primary.type (g : Standing) : Primary → Except AnalysisError (Option Ty)
  | number _ => .ok (some Ty.num)
  | string _ => .ok (some Ty.string)
  | truth _ => .ok (some Ty.boolean)
  | nil => .ok (some Ty.nil)
  | name x => nameType g x
  | inherited x => nameType g x
  | this | group _ | array _ | creation _ => .ok none

def Call.type (g : Standing) : Call → Except AnalysisError (Option Ty)
  | primary callee _ => callee.type g
  | function _ => .ok none

def Unary.type (g : Standing) : Unary → Except AnalysisError (Option Ty)
  | signed _ _ => .ok none
  | call c => c.type g

namespace Chain

variable {α : Type}

def checkRest (operand : α → Except AnalysisError (Option Ty))
    (check : Kind → Option Ty → Except AnalysisError Unit) :
    List (Kind × α) → Except AnalysisError Unit
  | [] => .ok ()
  | (k, a) :: rest => do
    let right ← operand a
    check k right
    checkRest operand check rest

def type (operand : α → Except AnalysisError (Option Ty))
    (check : Option Ty → Kind → Option Ty → Except AnalysisError Unit) (result : Ty)
    (c : Chain α) : Except AnalysisError (Option Ty) :=
  match c.rest with
  | [] => operand c.first
  | rest => do
    let left ← operand c.first
    checkRest operand (check left) rest
    return some result

end Chain

def checkArithmetic (g : Standing) (left : Option Ty) (k : Kind) (right : Option Ty) :
    Except AnalysisError Unit :=
  (Operand.checkArithmetic left right (word k) g.inPrint g.inReturn).map fun _ => ()

def checkEquality (left : Option Ty) (k : Kind) (right : Option Ty) : Except AnalysisError Unit :=
  Operand.checkEquality left right (word k)

def checkLogical (operator : String) (left : Option Ty) (_ : Kind) (right : Option Ty) :
    Except AnalysisError Unit :=
  Operand.checkLogical left right operator

def Factor.type (g : Standing) (e : Factor) : Except AnalysisError (Option Ty) :=
  Chain.type (Unary.type g) (checkArithmetic g) Ty.num e

def Term.type (g : Standing) (e : Term) : Except AnalysisError (Option Ty) :=
  Chain.type (Factor.type g) (checkArithmetic g) Ty.num e

def Comparison.type (g : Standing) (e : Comparison) : Except AnalysisError (Option Ty) :=
  Chain.type (Term.type g) (checkArithmetic g) Ty.boolean e

def Equality.type (g : Standing) (e : Equality) : Except AnalysisError (Option Ty) :=
  Chain.type (Comparison.type g) checkEquality Ty.boolean e

def LogicAnd.type (g : Standing) (e : LogicAnd) : Except AnalysisError (Option Ty) :=
  Chain.type (Equality.type g) (checkLogical "and") Ty.boolean e

def LogicOr.type (g : Standing) (e : LogicOr) : Except AnalysisError (Option Ty) :=
  Chain.type (LogicAnd.type g) (checkLogical "or") Ty.boolean e

end Syntax

inductive Step where
  | enter (scope : String)
  | exit
  | declare (what : Declared) (name : String)
  | bind (function : String) (keys : List String)
  | unbind
  | beginPrint
  | endPrint
  | aim (target : String)
  | weigh (e : Syntax.LogicOr)
  | assign (target : String)
  | initialise (name : String)
  | require (place : String)
  | giveBack (owner : Option String) (bare : Bool)

namespace Step

def declareIn (g : Stage) (what : Declared) (name : String) : Except AnalysisError Stage :=
  if (g.scopes.find? name (some what.category)).isSome then .error (.alreadyDeclared what name)
  else
    match g.scopes.add (Symbol.ofEntity name what.entity) with
    | .ok scopes => .ok { g with scopes := scopes }
    | .error e => .error (.symbol e)

def assignIn (g : Stage) (target : String) : Except AnalysisError Stage :=
  match (g.scopes.find? target (some .variables)).bind Symbol.type? with
  | none => .ok { g with scopes := g.scopes.setType target g.type, type := none }
  | some t =>
    if t.text ≠ Ty.show? g.type then .error (.cannotAssign g.type target (some t))
    else .ok { g with type := none }

def returnIn (g : Stage) : Option String → Except AnalysisError Stage
  | none => .error (.absent "return_type")
  | some name =>
    let type := (g.scopes.find? name (some .functions)).bind Symbol.returns?
    if type = some Ty.nil then .ok { g with scopes := g.scopes.setReturns name g.type }
    else if Ty.show? type ≠ Ty.show? g.type then .error (.cannotReturn g.type name type)
    else .ok g

def run (g : Stage) : Step → Except AnalysisError Stage
  | enter scope => .ok { g with scopes := g.scopes.enter scope }
  | exit => .ok { g with scopes := g.scopes.exit }
  | declare what name => declareIn g what name
  | bind function keys =>
    .ok { g with scopes := g.scopes.setParams function keys, inReturn := true }
  | unbind => .ok { g with inReturn := false }
  | beginPrint => .ok { g with inPrint := true }
  | endPrint => .ok { g with inPrint := false }
  | aim target =>
    if (g.scopes.find? target (some .variables)).isNone then
      .error (.undeclaredTarget target g.scopes.current.describe)
    else .ok g
  | weigh e => (e.type g.toStanding).map fun t => { g with type := t }
  | assign target => assignIn g target
  | initialise name => .ok { g with scopes := g.scopes.setType name g.type }
  | require place => (Operand.checkBoolean g.type place).map fun _ => g
  | giveBack owner true => if owner.isNone then .error (.absent "name") else .ok g
  | giveBack owner false => if g.inReturn then .ok g else returnIn g owner

end Step

/-- Takes the steps one after the other; at the first refusal the stage stays as it is. -/
def execute : List Step → Stage → Option AnalysisError × Stage
  | [], g => (none, g)
  | s :: steps, g =>
    match s.run g with
    | .ok g' => execute steps g'
    | .error e => (some e, g)

theorem execute_append (before after : List Step) (g : Stage) :
    execute (before ++ after) g =
      match execute before g with
      | (none, g') => execute after g'
      | (some e, g') => (some e, g') := by
  induction before generalizing g with
  | nil => rfl
  | cons s before ih =>
    simp only [List.cons_append, execute]
    cases s.run g with
    | ok g' => exact ih g'
    | error e => rfl

theorem execute_append_ok {before after : List Step} {g g' : Stage}
    (h : execute (before ++ after) g = (none, g')) :
    ∃ g₁, execute before g = (none, g₁) ∧ execute after g₁ = (none, g') := by
  rw [execute_append] at h
  split at h
  · next g₁ hb => exact ⟨g₁, hb, h⟩
  · cases h

theorem execute_cons_ok {s : Step} {steps : List Step} {g g' : Stage}
    (h : execute (s :: steps) g = (none, g')) :
    ∃ g₁, s.run g = .ok g₁ ∧ execute steps g₁ = (none, g') := by
  simp only [execute] at h
  split at h
  · next g₁ hs => exact ⟨g₁, hs, h⟩
  · cases h

theorem execute_eq_some {steps : List Step} {g g' : Stage} {e : AnalysisError} :
    execute steps g = (some e, g') ↔
      ∃ before s after, steps = before ++ s :: after ∧ execute before g = (none, g') ∧
        s.run g' = .error e := by
  induction steps generalizing g with
  | nil => simp [execute]
  | cons s steps ih =>
    simp only [execute]
    constructor
    · intro h
      cases hs : s.run g with
      | ok g₁ =>
        simp only [hs] at h
        obtain ⟨before, t, after, rfl, hb, ht⟩ := ih.mp h
        exact ⟨s :: before, t, after, rfl, by simp [execute, hs, hb], ht⟩
      | error e' =>
        simp only [hs, Prod.mk.injEq, Option.some.injEq] at h
        obtain ⟨rfl, rfl⟩ := h
        exact ⟨[], s, steps, rfl, rfl, hs⟩
    · rintro ⟨before, t, after, he, hb, ht⟩
      cases before with
      | nil =>
        simp only [List.nil_append, List.cons.injEq] at he
        obtain ⟨rfl, rfl⟩ := he
        simp only [execute, Prod.mk.injEq, true_and] at hb
        subst hb
        simp [ht]
      | cons u before =>
        simp only [List.cons_append, List.cons.injEq] at he
        obtain ⟨rfl, rfl⟩ := he
        simp only [execute] at hb
        cases hs : s.run g with
        | ok g₁ =>
          simp only [hs] at hb
          exact ih.mpr ⟨before, t, after, rfl, hb, ht⟩
        | error e' => simp [hs] at hb

namespace Syntax

open Step

def Assignment.steps : Assignment → List Step
  | assign _ target value => aim target.text :: value.steps ++ [.assign target.text]
  | operation e => [weigh e]

def Expression.steps : Expression → List Step
  | assignment a => a.steps
  | function parts => [weigh (.ofUnary (.call (.function parts)))]

def VarDecl.steps (v : VarDecl) : List Step :=
  match v.value with
  | none => [declare .variable v.name.text]
  | some e => declare .variable v.name.text :: e.steps ++ [initialise v.name.text]

def ForInit.steps : ForInit → List Step
  | .variable v => v.steps
  | expression e => e.steps
  | nothing => []

def headSteps : List Expression → List Step
  | [] => []
  | [c] => c.steps ++ [require " in for loop condition"]
  | c :: u :: _ => c.steps ++ require " in for loop condition" :: u.steps

def ForHead.steps (h : ForHead) : List Step :=
  h.init.steps ++ headSteps (h.condition.toList ++ h.update.toList)

def Params.steps (function : String) : Option Params → List Step
  | none => []
  | some ps =>
    ps.names.map (fun x => declare .parameter x.text) ++ [bind function (ps.names.map Name.text)]

def returnSteps (owner : Option String) : Option Expression → List Step
  | none => [giveBack owner true]
  | some e => e.steps ++ [giveBack owner false]

mutual

def Statement.steps (scope owner : Option String) : Statement → List Step
  | .expression e => e.steps
  | .forLoop head body =>
    enter "For Loop" :: head.steps ++ enter "For Loop Body" :: body.steps none none ++ [exit, exit]
  | .ifThen condition yes =>
    condition.steps ++ require " in if statement" :: yes.steps (some "If Block") none
  | .ifElse condition yes no =>
    condition.steps ++ require " in if statement" :: yes.steps (some "If Block") none ++
      no.steps (some "Else Block") none
  | .print e => beginPrint :: e.steps ++ [endPrint]
  | .giveBack value => returnSteps owner value
  | .whileLoop condition body =>
    condition.steps ++ require " in while loop condition" :: body.steps (some "While Loop") none
  | .block body => enter (scope.getD "Block Scope") :: Declaration.stepsAll none body ++ [exit]

def Declaration.steps (owner : Option String) : Declaration → List Step
  | .classType _ => []
  | .function name params body =>
    declare .function name.text :: enter ("Function '" ++ name.text ++ "'") ::
      Params.steps name.text params ++ enter ("Function " ++ name.text ++ " Body") ::
        Declaration.stepsAll (some name.text) body ++ [exit, exit, unbind]
  | .variable v => v.steps
  | .statement s => s.steps none owner

def Declaration.stepsAll (owner : Option String) : List Declaration → List Step
  | [] => []
  | d :: ds => d.steps owner ++ Declaration.stepsAll owner ds

end

def Program.steps (p : Program) : List Step :=
  Declaration.stepsAll none p.body

end Syntax

end CompiScript
