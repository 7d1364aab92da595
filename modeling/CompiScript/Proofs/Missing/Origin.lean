import CompiScript.Proofs.Sessions
import CompiScript.Proofs.Uses.Names

namespace CompiScript

open Syntax

namespace AnalysisError

def missing? : AnalysisError → Option String
  | undeclared x => some x
  | undeclaredTarget x _ => some x
  | _ => none

def isMismatch : AnalysisError → Bool
  | needsBooleans _ _ _ => true
  | needsNumbers _ _ _ => true
  | notComparable _ _ _ => true
  | needsNumbersOrStrings _ _ _ => true
  | expectedBoolean _ => true
  | cannotAssign _ _ _ => true
  | cannotReturn _ _ _ => true
  | _ => false

end AnalysisError

namespace Syntax

def Primary.sought : Primary → List String
  | name x => [x.text]
  | inherited x => [x.text]
  | _ => []

def Unary.sought : Unary → List String
  | signed _ _ => []
  | call (.primary callee _) => callee.sought
  | call (.function _) => []

def LogicOr.sought (e : LogicOr) : List String :=
  e.unaries.flatMap Unary.sought

def Assignment.sought : Assignment → List String
  | assign _ target value => target.text :: value.sought
  | operation e => e.sought

def Expression.sought : Expression → List String
  | assignment a => a.sought
  | function _ => []

section Origin

variable {g : Standing} {err : AnalysisError}

theorem Unary.error_origin {u : Unary} (h : u.type g = .error err) :
    ∃ x ∈ u.sought, err = .undeclared x ∧ g.scopes.find? x (some .variables) = none := by
  have hname : ∀ x : Name, nameType g x = .error err →
      err = .undeclared x.text ∧ g.scopes.find? x.text (some .variables) = none := by
    intro x hx
    simp only [nameType] at hx
    split at hx
    · next hnone =>
      cases hx
      exact ⟨rfl, hnone⟩
    · cases hx
  cases u with
  | signed operator operand => cases h
  | call c =>
    cases c with
    | function parts => cases h
    | primary callee suffixes =>
      cases callee with
      | name x => exact ⟨x.text, .head _, hname x h⟩
      | inherited x => exact ⟨x.text, .head _, hname x h⟩
      | _ => cases h

theorem Chain.error_origin {α : Type} {operand : α → Except AnalysisError (Option Ty)}
    {check : Option Ty → Kind → Option Ty → Except AnalysisError Unit} {result : Ty} {c : Chain α}
    (h : c.type operand check result = .error err) :
    (∃ a ∈ c.operands, operand a = .error err) ∨ ∃ left k right, check left k right = .error err := by
  have hrest : ∀ left rest, checkRest operand (check left) rest = .error err →
      (∃ a ∈ rest.map Prod.snd, operand a = .error err) ∨ ∃ left k right, check left k right = .error err := by
    intro left rest hr
    induction rest with
    | nil => cases hr
    | cons p rest ih =>
      obtain ⟨k, a⟩ := p
      rcases bind_eq_error hr with ha | ⟨right, -, hmore⟩
      · exact .inl ⟨a, .head _, ha⟩
      · rcases bind_eq_error hmore with hk | ⟨-, -, hr⟩
        · exact .inr ⟨left, k, right, hk⟩
        · exact (ih hr).imp_left fun ⟨b, hb, herror⟩ => ⟨b, .tail _ hb, herror⟩
  obtain ⟨a, rest⟩ := c
  cases rest with
  | nil => exact .inl ⟨a, .head _, h⟩
  | cons p rest =>
    rcases bind_eq_error h with ha | ⟨left, -, hmore⟩
    · exact .inl ⟨a, .head _, ha⟩
    · rcases bind_eq_error hmore with hr | ⟨-, -, hresult⟩
      · exact (hrest left (p :: rest) hr).imp_left fun ⟨b, hb, herror⟩ => ⟨b, .tail _ hb, herror⟩
      · cases hresult

theorem checkArithmetic_mismatch {left right : Option Ty} {k : Kind} (h : checkArithmetic g left k right = .error err) :
    err.isMismatch = true := by
  simp only [checkArithmetic, Operand.checkArithmetic] at h
  repeat' split at h
  all_goals cases h
  rfl

theorem checkEquality_mismatch {left right : Option Ty} {k : Kind} (h : checkEquality left k right = .error err) :
    err.isMismatch = true := by
  simp only [checkEquality, Operand.checkEquality] at h
  repeat' split at h
  all_goals cases h
  all_goals rfl

theorem checkLogical_mismatch {operator : String} {left right : Option Ty} {k : Kind}
    (h : checkLogical operator left k right = .error err) : err.isMismatch = true := by
  simp only [checkLogical, Operand.checkLogical] at h
  split at h <;> cases h
  rfl

theorem LogicOr.error_origin {e : LogicOr} (h : e.type g = .error err) :
    (∃ u ∈ e.unaries, u.type g = .error err) ∨ err.isMismatch = true := by
  rcases Chain.error_origin h with ⟨a, ha, h⟩ | ⟨_, _, _, h⟩
  case inr => exact .inr (checkLogical_mismatch h)
  rcases Chain.error_origin h with ⟨q, hq, h⟩ | ⟨_, _, _, h⟩
  case inr => exact .inr (checkLogical_mismatch h)
  rcases Chain.error_origin h with ⟨c, hc, h⟩ | ⟨_, _, _, h⟩
  case inr => exact .inr (checkEquality_mismatch h)
  rcases Chain.error_origin h with ⟨t, ht, h⟩ | ⟨_, _, _, h⟩
  case inr => exact .inr (checkArithmetic_mismatch h)
  rcases Chain.error_origin h with ⟨f, hf, h⟩ | ⟨_, _, _, h⟩
  case inr => exact .inr (checkArithmetic_mismatch h)
  rcases Chain.error_origin h with ⟨u, hu, h⟩ | ⟨_, _, _, h⟩
  case inr => exact .inr (checkArithmetic_mismatch h)
  left
  refine ⟨u, ?_, h⟩
  simp only [unaries, List.mem_flatMap]
  exact ⟨a, ha, q, hq, c, hc, t, ht, f, hf, hu⟩

end Origin

end Syntax

namespace Step

def sought : Step → List String
  | aim target => [target]
  | weigh e => e.sought
  | _ => []

theorem error_origin {s : Step} {g : Stage} {e : AnalysisError} (h : s.run g = .error e) :
    (∃ what x, s = declare what x ∧ (e = .alreadyDeclared what x ∨ e = .symbol .taken)) ∨
      (∃ x ∈ s.sought, e.missing? = some x ∧ g.scopes.find? x (some .variables) = none) ∨
      e.isMismatch = true ∨ ∃ asked, e = .absent asked := by
  cases s with
  | declare what x =>
    rw [run, declareIn_eq] at h
    left
    refine ⟨what, x, rfl, ?_⟩
    split at h
    · cases h; exact .inl rfl
    · split at h
      · cases h; exact .inr rfl
      · cases h
  | aim target =>
    rw [run] at h
    split at h
    · next hnone =>
      cases h
      exact .inr (.inl ⟨target, .head _, rfl, Option.isNone_iff_eq_none.mp hnone⟩)
    · cases h
  | weigh e =>
    rw [run] at h
    cases ht : e.type g.toStanding with
    | ok t => rw [ht] at h; cases h
    | error err =>
      rw [ht] at h
      cases h
      rcases LogicOr.error_origin ht with ⟨u, hu, herror⟩ | hmismatch
      · obtain ⟨x, hx, rfl, hnone⟩ := u.error_origin herror
        exact .inr (.inl ⟨x, List.mem_flatMap.mpr ⟨u, hu, hx⟩, rfl, hnone⟩)
      · exact .inr (.inr (.inl hmismatch))
  | assign target =>
    simp only [run, assignIn] at h
    split at h
    · cases h
    · split at h <;> cases h
      exact .inr (.inr (.inl rfl))
  | require place =>
    simp only [run, Operand.checkBoolean] at h
    split at h <;> cases h
    exact .inr (.inr (.inl rfl))
  | giveBack owner bare =>
    cases bare with
    | true =>
      rw [run] at h
      split at h <;> cases h
      exact .inr (.inr (.inr ⟨_, rfl⟩))
    | false =>
      rw [run] at h
      split at h
      · cases h
      · cases owner with
        | none =>
          cases h
          exact .inr (.inr (.inr ⟨_, rfl⟩))
        | some name =>
          simp only [returnIn] at h
          split at h
          · cases h
          · split at h <;> cases h
            exact .inr (.inr (.inl rfl))
  | _ => cases h

theorem missing_origin {s : Step} {g : Stage} {e : AnalysisError} {x : String} (h : s.run g = .error e)
    (hx : e.missing? = some x) : x ∈ s.sought ∧ g.scopes.find? x (some .variables) = none := by
  rcases error_origin h with ⟨what, y, -, rfl | rfl⟩ | ⟨y, hy, hmissing, hnone⟩ | hmismatch | ⟨asked, rfl⟩
  · cases hx
  · cases hx
  · obtain rfl : y = x := Option.some.inj (hmissing.symm.trans hx)
    exact ⟨hy, hnone⟩
  · cases e <;> cases hx <;> cases hmismatch
  · cases hx

end Step

end CompiScript
