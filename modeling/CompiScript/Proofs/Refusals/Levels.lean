import CompiScript.Proofs.Chains.Weighing
import CompiScript.Proofs.Uses.Names

namespace CompiScript

namespace Analysis

variable {α β : Type}

def FailsAs (a b : Analysis α) : Prop :=
  ∀ s e s', a.runFrom s = (.error e, s') → b.runFrom s = (.error e, s')

namespace FailsAs

theorem pure (v : α) (b : Analysis α) : FailsAs (Pure.pure v) b := by
  intro s e s' h
  cases h

theorem bind (a : Analysis α) {k l : α → Analysis β} (h : ∀ v, FailsAs (k v) (l v)) : FailsAs (a >>= k) (a >>= l) := by
  intro s e s' hk
  rw [runFrom_bind] at hk ⊢
  cases ha : a.runFrom s with
  | mk r s₁ =>
    rw [ha] at hk
    cases r with
    | error _ => exact hk
    | ok v => exact h v s₁ e s' hk

theorem then_pure {a b : Analysis α} (h : FailsAs a b) (k : α → Analysis β) (f : α → β) :
    FailsAs (a >>= fun v => Pure.pure (f v)) (b >>= k) := by
  intro s e s' ha
  rw [runFrom_bind] at ha ⊢
  cases hrun : a.runFrom s with
  | mk r s₁ =>
    rw [hrun] at ha
    cases r with
    | error _ =>
      cases ha
      rw [h s _ _ hrun]
    | ok v => cases ha

end FailsAs

theorem visitOperands_failsAs (level : Level) {seen seen' : Nat → Option Ty → Analysis Unit} {cs : List Child} (i : Nat)
    (hseen : ∀ j < i + cs.length, seen' j = seen j) (more : List Child) :
    FailsAs (visitOperands level seen i cs) (visitOperands level seen' i (cs ++ more)) := by
  induction cs generalizing i with
  | nil => exact .pure () _
  | cons c cs ih =>
    have hlength : i + (c :: cs).length = i + 1 + cs.length := by
      rw [List.length_cons]
      omega
    rw [hlength] at hseen
    have hhere : seen' i = seen i := hseen i (by omega)
    simp only [List.cons_append, visitOperands, hhere]
    exact .bind _ fun _ => .bind _ fun _ => .bind _ fun _ => ih (i + 1) hseen

theorem visitLevel_of_two (level : Level) {cs : List Child} {a b : Child} {rest : List Child}
    (h : ofRule level.operand cs = a :: b :: rest) (first : Option Ty → Analysis Unit)
    (check : Option Ty → Nat → Option Ty → Analysis Unit) (result : Ty) :
    visitLevel level cs first check result = (do
      remark ("Visiting " ++ level.rule.name)
      let left ← typeOf a
      first left
      visitOperands level (check left) 1 (b :: rest)
      return .type (some result)) := by
  simp only [visitLevel, h, firstOperand, List.tail_cons]

end Analysis

def AnalysisError.Names (e : AnalysisError) (text : String) : Prop :=
  text.toList <:+: e.message.toList

namespace Syntax

namespace Level

def below : Level → Rule
  | logicOr => .equality
  | logicAnd => .comparison
  | equality => .term
  | comparison => .factor
  | term => .unary
  | factor => .call

def greet (l : Level) (left : Option Ty) : Analysis Unit :=
  match l with
  | comparison => Analysis.remark ("Visited left term in comparison: " ++ Ty.show? left)
  | _ => return

def examine (l : Level) (cs : List Child) (left : Option Ty) (i : Nat) (right : Option Ty) : Analysis Unit :=
  match l with
  | logicOr => Analysis.check (Operand.checkLogical left right "or")
  | logicAnd => Analysis.check (Operand.checkLogical left right "and")
  | equality => do Analysis.check (Operand.checkEquality left right (← Analysis.operatorText i cs))
  | comparison => do
    Analysis.remark ("Visited right term in comparison: " ++ Ty.show? right)
    Analysis.checkArithmetic cs left i right
  | term | factor => Analysis.checkArithmetic cs left i right

theorem visitRule_eq (l : Level) (manner : Manner) (cs : List Child) :
    Analysis.visitRule l.rule manner cs =
      Analysis.visitLevel ⟨l.rule, l.operand, l.below⟩ cs l.greet (l.examine cs) l.result := by
  cases l <;> rfl

theorem examine_append (l : Level) {cs : List Child} {i : Nat} (hi : 2 * i - 1 < cs.length) (more : List Child)
    (left : Option Ty) : l.examine (cs ++ more) left i = l.examine cs left i := by
  have htext : Analysis.operatorText i (cs ++ more) = Analysis.operatorText i cs := by
    rw [Analysis.operatorText, Analysis.operatorText, List.getElem?_append_left hi]
  cases l with
  | logicOr | logicAnd => rfl
  | equality | comparison | term | factor =>
    funext right
    simp only [examine, Analysis.checkArithmetic, htext]

theorem visitRule_failsAs (l : Level) (manner : Manner) {cs : List Child}
    (htwo : 2 ≤ (Analysis.ofRule l.operand cs).length)
    (hturns : 2 * (Analysis.ofRule l.operand cs).length ≤ cs.length + 1) (more : List Child) :
    Analysis.FailsAs (Analysis.visitRule l.rule manner cs) (Analysis.visitRule l.rule manner (cs ++ more)) := by
  obtain ⟨a, b, rest, hoperands⟩ : ∃ a b rest, Analysis.ofRule l.operand cs = a :: b :: rest := by
    match h : Analysis.ofRule l.operand cs with
    | [] | [_] => simp [h] at htwo
    | a :: b :: rest => exact ⟨a, b, rest, rfl⟩
  have hall : Analysis.ofRule l.operand (cs ++ more) = a :: b :: (rest ++ Analysis.ofRule l.operand more) := by
    rw [Analysis.ofRule, List.filter_append]
    exact congrArg (· ++ _) hoperands
  have hexamine : ∀ left, ∀ j < 1 + (b :: rest).length, l.examine (cs ++ more) left j = l.examine cs left j := by
    intro left j hj
    apply l.examine_append
    simp only [hoperands, List.length_cons] at hturns hj
    omega
  rw [visitRule_eq, visitRule_eq, Analysis.visitLevel_of_two _ hoperands, Analysis.visitLevel_of_two _ hall]
  refine .bind _ fun _ => .bind _ fun left => .bind _ fun _ => ?_
  exact (Analysis.visitOperands_failsAs _ 1 (hexamine left) _).then_pure _ _

end Level

namespace Chain

variable {α : Type}

theorem restTrees_map (tree : α → Tree) (rest : List (Kind × α)) :
    restTrees id (rest.map fun p => (p.1, tree p.2)) = restTrees tree rest := by
  induction rest with
  | nil => rfl
  | cons p rest ih => rw [List.map_cons, restTrees, ih, restTrees, id]

theorem restTrees_append (tree : α → Tree) (before after : List (Kind × α)) :
    restTrees tree (before ++ after) = restTrees tree before ++ restTrees tree after := by
  induction before with
  | nil => rfl
  | cons p before ih => simp only [List.cons_append, restTrees, ih]

theorem length_restTrees (tree : α → Tree) (rest : List (Kind × α)) :
    (restTrees tree rest).length = 2 * rest.length := by
  induction rest with
  | nil => rfl
  | cons p rest ih =>
    simp only [restTrees, List.length_cons, ih]
    omega

variable {operand : α → Except AnalysisError (Option Ty)}

theorem checkRest_append (check : Kind → Option Ty → Except AnalysisError Unit) (before after : List (Kind × α)) :
    checkRest operand check (before ++ after) =
      checkRest operand check before >>= fun _ => checkRest operand check after := by
  induction before with
  | nil => rfl
  | cons p before ih => simp only [List.cons_append, checkRest, ih, bind_assoc]

theorem type_of_rest {c : Chain α} (hrest : c.rest ≠ []) {left : Option Ty} (hfirst : operand c.first = .ok left)
    (check : Option Ty → Kind → Option Ty → Except AnalysisError Unit) (result : Ty) :
    c.type operand check result = (checkRest operand (check left) c.rest).map fun _ => some result := by
  obtain ⟨a, _ | ⟨p, rest⟩⟩ := c
  · exact absurd rfl hrest
  · change (operand a >>= fun left => checkRest operand (check left) (p :: rest) >>= fun _ => .ok (some result)) = _
    rw [show operand a = .ok left from hfirst]
    change (checkRest operand (check left) (p :: rest) >>= fun _ => .ok (some result)) = _
    cases checkRest operand (check left) (p :: rest) <;> rfl

end Chain

end Syntax

end CompiScript
