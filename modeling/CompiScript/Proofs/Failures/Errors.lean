import CompiScript.Proofs.Outline

namespace CompiScript

open Syntax

inductive FailureKind where
  | objection | absence | misuse
deriving DecidableEq

namespace AnalysisError

def kind : AnalysisError → FailureKind
  | absent _ => .absence
  | symbol .unnamedClass => .absence
  | symbol .taken => .misuse
  | symbol .noParameters => .misuse
  | _ => .objection

def isProper : AnalysisError → Bool
  | alreadyDeclared _ _ => true
  | undeclared _ => true
  | undeclaredTarget _ _ => true
  | needsBooleans _ _ _ => true
  | needsNumbers _ _ _ => true
  | notComparable _ _ _ => true
  | needsNumbersOrStrings _ _ _ => true
  | expectedBoolean _ => true
  | cannotAssign _ _ _ => true
  | cannotReturn _ _ _ => true
  | _ => false

theorem kind_of_isProper {e : AnalysisError} (h : e.isProper = true) : e.kind = .objection := by
  cases e <;> first | rfl | cases h

end AnalysisError

namespace Declared

def other : Declared → Category
  | .variable => .functions
  | .parameter => .functions
  | .function => .variables

end Declared

namespace Step

def IsStrayReturn (g : Stage) : Step → Prop
  | giveBack none bare => bare = true ∨ g.inReturn = false
  | _ => False

def IsClash (g : Stage) : Step → Prop
  | declare what name =>
    what ≠ .parameter ∧
      (∃ s, g.scopes.current.table.lookup name = some s ∧ s.entity.belongs what.other = true) ∧
      g.scopes.find? name (some what.category) = none
  | _ => False

def function? : Step → Option String
  | bind function _ => some function
  | giveBack owner _ => owner
  | _ => none

end Step

namespace Syntax

section Operands

variable {Q : AnalysisError → Prop} {err : AnalysisError}

theorem Chain.type_error {α : Type} {operand : α → Except AnalysisError (Option Ty)}
    {check : Option Ty → Kind → Option Ty → Except AnalysisError Unit} {result : Ty} {c : Chain α}
    (hoperand : ∀ a err, operand a = .error err → Q err)
    (hcheck : ∀ left k right err, check left k right = .error err → Q err)
    (h : c.type operand check result = .error err) : Q err := by
  have hrest : ∀ left rest, Chain.checkRest operand (check left) rest = .error err → Q err := by
    intro left rest hr
    induction rest with
    | nil => cases hr
    | cons p rest ih =>
      obtain ⟨k, a⟩ := p
      rcases bind_eq_error hr with ha | ⟨right, -, hmore⟩
      · exact hoperand a err ha
      · rcases bind_eq_error hmore with hk | ⟨-, -, hr⟩
        · exact hcheck left k right err hk
        · exact ih hr
  obtain ⟨a, rest⟩ := c
  cases rest with
  | nil => exact hoperand a err h
  | cons p rest =>
    rcases bind_eq_error h with ha | ⟨left, -, hmore⟩
    · exact hoperand a err ha
    · rcases bind_eq_error hmore with hr | ⟨-, -, hresult⟩
      · exact hrest left (p :: rest) hr
      · cases hresult

theorem Unary.type_error {g : Standing} {u : Unary} (h : u.type g = .error err) : err.isProper = true := by
  have hname : ∀ x : Name, nameType g x = .error err → err.isProper = true := by
    intro x hx
    simp only [nameType] at hx
    split at hx
    · cases hx; rfl
    · cases hx
  cases u with
  | signed operator operand => cases h
  | call c =>
    cases c with
    | function parts => cases h
    | primary callee suffixes =>
      cases callee with
      | name x => exact hname x h
      | inherited x => exact hname x h
      | _ => cases h

theorem checkArithmetic_error {g : Standing} {left right : Option Ty} {k : Kind}
    (h : checkArithmetic g left k right = .error err) : err.isProper = true := by
  simp only [checkArithmetic, Operand.checkArithmetic] at h
  split at h
  · cases h
  split at h
  · cases h
  split at h
  · cases h
  split at h
  · cases h
  cases h
  rfl

theorem checkEquality_error {left right : Option Ty} {k : Kind}
    (h : checkEquality left k right = .error err) : err.isProper = true := by
  simp only [checkEquality, Operand.checkEquality] at h
  split at h
  · cases h; rfl
  split at h
  · cases h
  cases h
  rfl

theorem checkLogical_error {operator : String} {left right : Option Ty} {k : Kind}
    (h : checkLogical operator left k right = .error err) : err.isProper = true := by
  simp only [checkLogical, Operand.checkLogical] at h
  split at h
  · cases h
  cases h
  rfl

theorem LogicOr.type_error {g : Standing} {e : LogicOr} (h : e.type g = .error err) :
    err.isProper = true := by
  have hfactor : ∀ (f : Factor) err, f.type g = .error err → err.isProper = true := fun f _ =>
    Chain.type_error (fun _ _ => Unary.type_error) (fun _ _ _ _ => checkArithmetic_error)
  have hterm : ∀ (t : Term) err, t.type g = .error err → err.isProper = true := fun t _ =>
    Chain.type_error hfactor (fun _ _ _ _ => checkArithmetic_error)
  have hcomparison : ∀ (c : Comparison) err, c.type g = .error err → err.isProper = true := fun c _ =>
    Chain.type_error hterm (fun _ _ _ _ => checkArithmetic_error)
  have hequality : ∀ (q : Equality) err, q.type g = .error err → err.isProper = true := fun q _ =>
    Chain.type_error hcomparison (fun _ _ _ _ => checkEquality_error)
  have hand : ∀ (a : LogicAnd) err, a.type g = .error err → err.isProper = true := fun a _ =>
    Chain.type_error hequality (fun _ _ _ _ => checkLogical_error)
  exact Chain.type_error hand (fun _ _ _ _ => checkLogical_error) h

end Operands

end Syntax

namespace Step

theorem run_error {s : Step} {g : Stage} {e : AnalysisError} (h : s.run g = .error e) :
    e.isProper = true ∨ ((e = .absent "name" ∨ e = .absent "return_type") ∧ s.IsStrayReturn g) ∨
      ∃ what x, s = declare what x ∧ e = .symbol .taken ∧
        g.scopes.find? x (some what.category) = none ∧ (g.scopes.current.table.lookup x).isSome = true := by
  cases s with
  | declare what x =>
    rw [run, declareIn_eq] at h
    split at h
    · cases h; exact .inl rfl
    · next hfound =>
      split at h
      · next htaken =>
        cases h
        exact .inr (.inr ⟨what, x, rfl, rfl, Option.not_isSome_iff_eq_none.mp hfound, htaken⟩)
      · cases h
  | aim target =>
    simp only [run] at h
    split at h
    · cases h; exact .inl rfl
    · cases h
  | weigh e =>
    simp only [run] at h
    cases ht : e.type g.toStanding with
    | ok t => rw [ht] at h; cases h
    | error err => rw [ht] at h; cases h; exact .inl (LogicOr.type_error ht)
  | assign target =>
    simp only [run, assignIn] at h
    split at h
    · cases h
    · split at h
      · cases h; exact .inl rfl
      · cases h
  | require place =>
    simp only [run, Operand.checkBoolean] at h
    split at h
    · cases h
    · cases h; exact .inl rfl
  | giveBack owner bare =>
    cases bare with
    | true =>
      simp only [run] at h
      split at h
      · next hnone =>
        cases h
        rw [Option.isNone_iff_eq_none.mp hnone]
        exact .inr (.inl ⟨.inl rfl, .inl rfl⟩)
      · cases h
    | false =>
      simp only [run] at h
      split at h
      · cases h
      · next hreturn =>
        cases owner with
        | none =>
          cases h
          exact .inr (.inl ⟨.inr rfl, .inr (Bool.eq_false_iff.mpr hreturn)⟩)
        | some name =>
          simp only [returnIn] at h
          split at h
          · cases h
          · split at h
            · cases h; exact .inl rfl
            · cases h
  | _ => cases h

theorem run_of_isStrayReturn {s : Step} {g : Stage} (h : s.IsStrayReturn g) :
    ∃ e, s.run g = .error e ∧ e.kind = .absence := by
  cases s with
  | giveBack owner bare =>
    cases owner with
    | some name => cases h
    | none =>
      cases bare with
      | true => exact ⟨.absent "name", rfl, rfl⟩
      | false =>
        have hreturn : g.inReturn = false := by
          simpa [IsStrayReturn] using h
        exact ⟨.absent "return_type", by simp [run, hreturn, returnIn], rfl⟩
  | _ => cases h

theorem run_of_isClash {s : Step} {g : Stage} (h : s.IsClash g) :
    ∃ e, s.run g = .error e ∧ e.kind = .misuse := by
  cases s with
  | declare what x =>
    obtain ⟨-, ⟨old, hold, -⟩, hfree⟩ := h
    exact ⟨.symbol .taken, by simp [run, declareIn_eq, hfree, hold], rfl⟩
  | _ => cases h

def Fits (k : Sketch) : Step → Prop
  | bind function _ => k.Has function .functions
  | giveBack (some owner) _ => k.Has owner .functions
  | declare .parameter _ => ∀ key ∈ k.current.keys, key.2 = .variables
  | _ => True

end Step

end CompiScript
