import Mathlib.Logic.Basic
import CompiScript.Proofs.Blindness.Erasure
import CompiScript.Proofs.Effects.Proper
import CompiScript.Proofs.Failures.Fits
import CompiScript.Proofs.Sessions

namespace CompiScript.Syntax

def HasType (s : AnalysisState) (tree : Tree) (t : Option Ty) : Prop :=
  ∃ s', (tree.visit .alone).runFrom s = (.ok (.type t), s')

structure Plain (s : AnalysisState) : Prop where
  inPrint : s.inPrint = false
  inReturn : s.inReturn = false
  types : ∀ x symbol, s.scopes.find? x (some .variables) = some symbol → Ty.IsProper symbol.type?

inductive Level where
  | logicOr | logicAnd | equality | comparison | term | factor
deriving DecidableEq

namespace Level

def rule : Level → Rule
  | logicOr => .logicOr
  | logicAnd => .logicAnd
  | equality => .equality
  | comparison => .comparison
  | term => .term
  | factor => .factor

def operand : Level → Rule
  | logicOr => .logicAnd
  | logicAnd => .equality
  | equality => .comparison
  | comparison => .term
  | term => .factor
  | factor => .unary

def operators : Level → List Kind
  | logicOr => [.orWord]
  | logicAnd => [.andWord]
  | equality => [.notEqual, .equalEqual]
  | comparison => [.greater, .greaterEqual, .less, .lessEqual]
  | term => [.minus, .plus]
  | factor => [.slash, .star, .percent]

def accepted : Level → List Ty
  | logicOr | logicAnd => [.boolean]
  | equality | comparison | term | factor => [.num, .string]

def result : Level → Ty
  | logicOr | logicAnd | equality | comparison => .boolean
  | term | factor => .num

end Level

def Uniform (s : AnalysisState) (c : Chain Tree) (t : Ty) : Prop :=
  HasType s c.first (some t) ∧ ∀ p ∈ c.rest, HasType s p.2 (some t)

section Acceptance

variable {s : AnalysisState} {tree : Tree}

theorem hasType_iff {r : Except AnalysisError (Option Ty)} {g : Standing}
    (h : Runs s.standing (tree.visit .alone) (r.map .type) g) (t : Option Ty) : HasType s tree t ↔ r = .ok t := by
  obtain ⟨s', hrun, -⟩ := h s rfl
  rw [HasType, hrun]
  cases r with
  | error e => simp [Except.map]
  | ok u => simp [Except.map]

theorem HasType.unique {t u : Option Ty} (h : HasType s tree t) (h' : HasType s tree u) : t = u := by
  obtain ⟨_, hrun⟩ := h
  obtain ⟨_, hrun'⟩ := h'
  simpa using (Prod.mk.inj (hrun.symm.trans hrun')).1

theorem Uniform.unique {c : Chain Tree} {t u : Ty} (h : Uniform s c t) (h' : Uniform s c u) : t = u :=
  Option.some.inj (h.1.unique h'.1)

end Acceptance

namespace Chain

variable {α : Type} {operand : α → Except AnalysisError (Option Ty)}

theorem checkRest_eq_ok {check : Kind → Option Ty → Except AnalysisError Unit} {rest : List (Kind × α)} :
    checkRest operand check rest = .ok () ↔
      ∀ p ∈ rest, ∃ right, operand p.2 = .ok right ∧ check p.1 right = .ok () := by
  induction rest with
  | nil => simp [checkRest]
  | cons p rest ih =>
    obtain ⟨k, a⟩ := p
    rw [checkRest, List.forall_mem_cons, ← ih]
    constructor
    · intro h
      obtain ⟨right, hright, hmore⟩ := bind_eq_ok h
      obtain ⟨_, hcheck, hrest⟩ := bind_eq_ok hmore
      exact ⟨⟨right, hright, hcheck⟩, hrest⟩
    · rintro ⟨⟨right, hright, hcheck⟩, hrest⟩
      dsimp only at hright hcheck
      rw [hright]
      change check k right >>= _ = _
      rw [hcheck]
      exact hrest

theorem type_eq_ok {check : Option Ty → Kind → Option Ty → Except AnalysisError Unit} {types : List Ty}
    (hcheck : ∀ left k a right, operand a = .ok right →
      (check left k right = .ok () ↔ ∃ u ∈ types, left = some u ∧ right = some u))
    {result : Ty} {c : Chain α} (hrest : c.rest ≠ []) (t : Option Ty) :
    c.type operand check result = .ok t ↔
      t = some result ∧ ∃ u ∈ types, operand c.first = .ok (some u) ∧ ∀ p ∈ c.rest, operand p.2 = .ok (some u) := by
  obtain ⟨a, _ | ⟨p, rest⟩⟩ := c
  · exact absurd rfl hrest
  constructor
  · intro h
    obtain ⟨left, hleft, hmore⟩ := bind_eq_ok h
    obtain ⟨_, hchecks, ht⟩ := bind_eq_ok hmore
    have hpairs := checkRest_eq_ok.mp hchecks
    obtain ⟨right, hright, hp⟩ := hpairs p List.mem_cons_self
    obtain ⟨u, hu, rfl, rfl⟩ := (hcheck left p.1 p.2 right hright).mp hp
    refine ⟨(Except.ok.inj ht).symm, u, hu, hleft, ?_⟩
    intro q hq
    obtain ⟨right, hright, hq⟩ := hpairs q hq
    obtain ⟨v, -, hv, rfl⟩ := (hcheck (some u) q.1 q.2 right hright).mp hq
    rw [hright, hv]
  · rintro ⟨rfl, u, hu, hfirst, hothers⟩
    have hchecks : checkRest operand (check (some u)) (p :: rest) = .ok () := by
      rw [checkRest_eq_ok]
      intro q hq
      exact ⟨some u, hothers q hq, (hcheck (some u) q.1 q.2 _ (hothers q hq)).mpr ⟨u, hu, rfl, rfl⟩⟩
    change (operand a >>= fun left => checkRest operand (check left) (p :: rest) >>= fun _ => _) = _
    rw [show operand a = .ok (some u) from hfirst]
    change (checkRest operand (check (some u)) (p :: rest) >>= fun _ => _) = _
    rw [hchecks]
    rfl

theorem map_eq_of_tree_eq {tree : α → Tree} {r : Rule} {e : Chain α} {c : Chain Tree}
    (h : e.tree r tree = c.tree r id) : e.map tree = c := by
  have hrest : ∀ (xs : List (Kind × α)) (ys : List (Kind × Tree)), restTrees tree xs = restTrees id ys →
      xs.map (fun p => (p.1, tree p.2)) = ys := by
    intro xs ys
    induction xs generalizing ys with
    | nil =>
      intro h
      cases ys with
      | nil => rfl
      | cons q ys => cases h
    | cons p xs ih =>
      intro h
      cases ys with
      | nil => cases h
      | cons q ys =>
        obtain ⟨hsign, htail⟩ := List.cons.inj h
        obtain ⟨htree, htail⟩ := List.cons.inj htail
        have hkind : p.1 = q.1 := congrArg Lexeme.kind (Tree.leaf.inj hsign)
        rw [List.map_cons, ih ys htail, hkind, htree]
        rfl
  obtain ⟨-, hchildren⟩ := Tree.node.inj h
  obtain ⟨hfirst, htail⟩ := List.cons.inj hchildren
  rw [Chain.map, hfirst, hrest e.rest c.rest htail]
  rfl

end Chain

theorem word_eq_plus {k : Kind} : word k = "+" ↔ k = .plus := by
  cases k <;> decide

theorem passesFor_iff {left right : Option Ty} (hright : Ty.IsProper right) :
    Operand.passesFor left right = true ↔ left = right := by
  cases right with
  | none => simp [Operand.passesFor]
  | some t =>
    cases t with
    | proper d => simp [Operand.passesFor]
    | loose d => cases hright

theorem Chain.type_isProper {α : Type} {operand : α → Except AnalysisError (Option Ty)}
    {check : Option Ty → Kind → Option Ty → Except AnalysisError Unit} {result : Ty}
    (hresult : Ty.IsProper (some result)) (hoperand : ∀ a t, operand a = .ok t → Ty.IsProper t) (c : Chain α)
    (t : Option Ty) (h : c.type operand check result = .ok t) : Ty.IsProper t := by
  rcases Chain.type_cases h with rfl | h
  · exact hresult
  · exact hoperand _ t h

end CompiScript.Syntax
