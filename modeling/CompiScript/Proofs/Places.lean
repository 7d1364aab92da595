import CompiScript.Proofs.Failures.Errors

/-!
Places in a program. A place is a statement or declaration where it stands: with the steps that the
analysis takes before and behind it, and with the functions whose bodies it is in. From a place one gets
to those inside it, through a statement or into the body of a function.
-/

namespace CompiScript.Syntax

open Step

mutual

def Statement.declares : Statement → Bool
  | .expression _ => false
  | .forLoop _ body => body.declares
  | .ifThen _ yes => yes.declares
  | .ifElse _ yes no => yes.declares || no.declares
  | .print _ => false
  | .giveBack _ => false
  | .whileLoop _ body => body.declares
  | .block body => Declaration.declaresAny body

def Declaration.declares : Declaration → Bool
  | .classType _ => false
  | .function _ _ _ => true
  | .variable _ => false
  | .statement s => s.declares

def Declaration.declaresAny : List Declaration → Bool
  | [] => false
  | d :: ds => d.declares || Declaration.declaresAny ds

end

theorem Declaration.declaresAny_append (ds es : List Declaration) :
    declaresAny (ds ++ es) = (declaresAny ds || declaresAny es) := by
  induction ds with
  | nil => rfl
  | cons d ds ih => rw [List.cons_append, declaresAny, declaresAny, ih, Bool.or_assoc]

theorem Declaration.stepsAll_append (owner : Option String) (ds es : List Declaration) :
    stepsAll owner (ds ++ es) = stepsAll owner ds ++ stepsAll owner es := by
  induction ds with
  | nil => rfl
  | cons d ds ih => rw [List.cons_append, stepsAll, stepsAll, ih, List.append_assoc]

structure Enclosure where
  name : String
  params : Option Params
  earlier : Bool

def Enclosure.pass (declares : Bool) : List Enclosure → List Enclosure
  | [] => []
  | e :: outer => { e with earlier := e.earlier || declares } :: outer

/-- A statement counts as the declaration that consists of it. `scope` is the name for the scope of a block
that is the part itself, `owner` the function in whose body the part stands directly. -/
structure Place where
  part : Declaration
  scope : Option String
  owner : Option String
  around : List Enclosure
  before : List Step
  after : List Step

namespace Place

def steps (pl : Place) : List Step :=
  match pl.part with
  | .statement s => s.steps pl.scope pl.owner
  | d => d.steps pl.owner

def inner (pl : Place) (part : Declaration) (scope : Option String) (front : List Step) (declares : Bool)
    (back : List Step) : Place :=
  ⟨part, scope, none, Enclosure.pass declares pl.around, pl.before ++ front, back ++ pl.after⟩

inductive Within (pl : Place) : Place → Prop
  | block {ds es : List Declaration} {d : Declaration} (h : pl.part = .statement (.block (ds ++ d :: es))) :
      Within pl (pl.inner d none (enter (pl.scope.getD "Block Scope") :: Declaration.stepsAll none ds)
        (Declaration.declaresAny ds) (Declaration.stepsAll none es ++ [exit]))
  | forBody {head : ForHead} {body : Statement} (h : pl.part = .statement (.forLoop head body)) :
      Within pl (pl.inner (.statement body) none (enter "For Loop" :: head.steps ++ [enter "For Loop Body"]) false
        [exit, exit])
  | ifThen {condition : Expression} {yes : Statement} (h : pl.part = .statement (.ifThen condition yes)) :
      Within pl (pl.inner (.statement yes) (some "If Block") (condition.steps ++ [require " in if statement"])
        false [])
  | ifYes {condition : Expression} {yes no : Statement} (h : pl.part = .statement (.ifElse condition yes no)) :
      Within pl (pl.inner (.statement yes) (some "If Block") (condition.steps ++ [require " in if statement"])
        false (no.steps (some "Else Block") none))
  | ifNo {condition : Expression} {yes no : Statement} (h : pl.part = .statement (.ifElse condition yes no)) :
      Within pl (pl.inner (.statement no) (some "Else Block")
        (condition.steps ++ require " in if statement" :: yes.steps (some "If Block") none) yes.declares [])
  | whileBody {condition : Expression} {body : Statement} (h : pl.part = .statement (.whileLoop condition body)) :
      Within pl (pl.inner (.statement body) (some "While Loop")
        (condition.steps ++ [require " in while loop condition"]) false [])

def opening (name : Name) (params : Option Params) : List Step :=
  declare .function name.text :: enter ("Function '" ++ name.text ++ "'") ::
    Params.steps name.text params ++ [enter ("Function " ++ name.text ++ " Body")]

def member (pl : Place) (name : Name) (params : Option Params) (ds : List Declaration) (d : Declaration)
    (es : List Declaration) : Place :=
  ⟨d, none, some name.text, ⟨name.text, params, Declaration.declaresAny ds⟩ :: pl.around,
    pl.before ++ opening name params ++ Declaration.stepsAll (some name.text) ds,
    Declaration.stepsAll (some name.text) es ++ [exit, exit, unbind] ++ pl.after⟩

inductive InBody (pl : Place) : Place → Prop
  | mk {name : Name} {params : Option Params} {ds es : List Declaration} {d : Declaration}
      (h : pl.part = .function name params (ds ++ d :: es)) : InBody pl (pl.member name params ds d es)

inductive Belongs (pl : Place) : Place → Prop
  | body {q : Place} (h : pl.InBody q) : Belongs pl q
  | within {q r : Place} (h : Belongs pl q) (hr : q.Within r) : Belongs pl r

theorem steps_of_scope_none {pl : Place} (h : pl.scope = none) : pl.steps = pl.part.steps pl.owner := by
  obtain ⟨part, scope, owner, around, before, after⟩ := pl
  subst h
  cases part <;> rfl

theorem Within.steps_eq {pl q : Place} (h : pl.Within q) :
    pl.before ++ pl.steps ++ pl.after = q.before ++ q.steps ++ q.after := by
  cases h with
  | block hpart =>
    rw [steps, hpart, steps_of_scope_none rfl]
    simp [inner, Statement.steps, Declaration.stepsAll_append, Declaration.stepsAll]
  | forBody hpart => simp [steps, hpart, inner, Statement.steps]
  | ifThen hpart => simp [steps, hpart, inner, Statement.steps]
  | ifYes hpart => simp [steps, hpart, inner, Statement.steps]
  | ifNo hpart => simp [steps, hpart, inner, Statement.steps]
  | whileBody hpart => simp [steps, hpart, inner, Statement.steps]

theorem InBody.steps_eq {pl q : Place} (h : pl.InBody q) :
    pl.before ++ pl.steps ++ pl.after = q.before ++ q.steps ++ q.after := by
  obtain ⟨hpart⟩ := h
  rw [steps, hpart, steps_of_scope_none rfl]
  simp [member, opening, Declaration.steps, Declaration.stepsAll_append, Declaration.stepsAll]

def ownSteps (pl : Place) : List Step :=
  match pl.part with
  | .classType _ => []
  | .function _ _ _ => []
  | .variable v => v.steps
  | .statement (.expression e) => e.steps
  | .statement (.forLoop head _) => enter "For Loop" :: head.steps
  | .statement (.ifThen condition _) => condition.steps ++ [require " in if statement"]
  | .statement (.ifElse condition _ _) => condition.steps ++ [require " in if statement"]
  | .statement (.print e) => beginPrint :: e.steps ++ [endPrint]
  | .statement (.giveBack value) => returnSteps pl.owner value
  | .statement (.whileLoop condition _) => condition.steps ++ [require " in while loop condition"]
  | .statement (.block _) => []

theorem exists_steps_eq_ownSteps_append (pl : Place) : ∃ rest, pl.steps = pl.ownSteps ++ rest := by
  obtain ⟨part, scope, owner, around, before, after⟩ := pl
  cases part with
  | classType parts => exact ⟨_, rfl⟩
  | function name params body => exact ⟨_, rfl⟩
  | «variable» v => exact ⟨[], (List.append_nil _).symm⟩
  | statement s =>
    cases s with
    | expression e => exact ⟨[], (List.append_nil _).symm⟩
    | forLoop head body => exact ⟨_, List.append_assoc _ _ _⟩
    | ifThen condition yes => exact ⟨_, (List.append_assoc _ [_] _).symm⟩
    | ifElse condition yes no => exact ⟨_, (List.append_assoc _ (_ :: _) _).trans (List.append_assoc _ [_] _).symm⟩
    | print e => exact ⟨[], (List.append_nil _).symm⟩
    | giveBack value => exact ⟨[], (List.append_nil _).symm⟩
    | whileLoop condition body => exact ⟨_, (List.append_assoc _ [_] _).symm⟩
    | block body => exact ⟨_, rfl⟩

end Place

inductive Program.Contains (p : Program) : Place → Prop
  | top {ds es : List Declaration} {d : Declaration} (h : p.body = ds ++ d :: es) :
      Contains p ⟨d, none, none, [], Declaration.stepsAll none ds, Declaration.stepsAll none es⟩
  | within {pl q : Place} (h : Contains p pl) (hq : pl.Within q) : Contains p q
  | inBody {pl q : Place} (h : Contains p pl) (hq : pl.InBody q) : Contains p q

theorem Program.Contains.steps_eq {p : Program} {pl : Place} (h : p.Contains pl) :
    p.steps = pl.before ++ pl.steps ++ pl.after := by
  induction h with
  | top hbody =>
    rw [Program.steps, hbody, Place.steps_of_scope_none rfl]
    simp [Declaration.stepsAll_append, Declaration.stepsAll]
  | within _ hq ih => exact ih.trans hq.steps_eq
  | inBody _ hq ih => exact ih.trans hq.steps_eq

theorem Program.Contains.of_belongs {p : Program} {pl q : Place} (h : p.Contains pl) (hq : pl.Belongs q) :
    p.Contains q := by
  induction hq with
  | body hq => exact .inBody h hq
  | within _ hr ih => exact .within ih hr

end CompiScript.Syntax
