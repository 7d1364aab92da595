import CompiScript.Proofs.Congruence.Visits
import CompiScript.Proofs.References

namespace CompiScript

namespace Analysis

theorem runFrom_tryScopes (f : Scopes → Except SymbolError Scopes) (s : AnalysisState) :
    (tryScopes f).runFrom s =
      match f s.scopes with
      | .ok scopes => (.ok (), { s with scopes := scopes })
      | .error e => (.error (.symbol e), s) := by
  have hstep : (tryScopes f).runFrom s =
      (match f s.scopes with
        | .ok scopes => modifyScopes fun _ => scopes
        | .error e => MonadExcept.throw (AnalysisError.symbol e)).runFrom s := rfl
  rw [hstep]
  cases f s.scopes <;> rfl

theorem runFrom_declare (x : String) (entity : Entity) (s : AnalysisState) :
    (declare x entity).runFrom s =
      match s.scopes.add (Symbol.ofEntity x entity) with
      | .ok scopes => (.ok (scopes.reference x), { s with scopes := scopes })
      | .error e => (.error (.symbol e), s) := by
  rw [declare, runFrom_bind, runFrom_tryScopes]
  cases s.scopes.add (Symbol.ofEntity x entity) <;> rfl

/-- An update that does nothing to a function that is found by its name. -/
def Idle (update : Reference → Analysis Unit) : Prop :=
  ∀ r s, s.scopes.Owns r → (update r).runFrom s = (.ok (), s)

theorem updateSymbol_idle : Idle updateSymbol := by
  intro r s hr
  obtain ⟨symbol, hat, -, -⟩ := hr.exists_symbol
  rw [updateSymbol, runFrom_tryScopes]
  simp only [hat, hr.update, Scopes.changeAt_at? hat]

end Analysis

def Accord (base : Scopes) (n m : Nat) {α : Type} (a a' : Analysis α) : Prop :=
  ∀ s : AnalysisState, base.Continues n s.scopes →
    a.runFrom s = a'.runFrom s ∧ ∀ x s', a.runFrom s = (.ok x, s') → base.Continues m s'.scopes

namespace Accord

variable {base : Scopes} {n m l : Nat} {α β : Type} {a a' : Analysis α}

theorem bind {k k' : α → Analysis β} (ha : Accord base n m a a') (hk : ∀ x, Accord base m l (k x) (k' x)) :
    Accord base n l (a >>= k) (a' >>= k') := by
  intro s hs
  obtain ⟨hsame, hcontinues⟩ := ha s hs
  rw [Analysis.runFrom_bind, Analysis.runFrom_bind, ← hsame]
  cases hrun : a.runFrom s with
  | mk r s₁ =>
    cases r with
    | error e => exact ⟨rfl, fun _ _ h => by cases h⟩
    | ok x => exact hk x s₁ (hcontinues x s₁ hrun)

theorem modify {f : AnalysisState → AnalysisState}
    (h : ∀ s, base.Continues n s.scopes → base.Continues m (f s).scopes) : Accord base n m (modify f) (modify f) := by
  intro s hs
  refine ⟨rfl, fun x s' hrun => ?_⟩
  cases hrun
  exact h s hs

theorem declare (what : Declared) (x : String) :
    Accord base n n (Analysis.declare x what.entity) (Analysis.declare x what.entity) := by
  intro s hs
  refine ⟨rfl, fun r s' hrun => ?_⟩
  rw [Analysis.runFrom_declare] at hrun
  cases hadd : s.scopes.add (Symbol.ofEntity x what.entity) with
  | error e =>
    rw [hadd] at hrun
    cases hrun
  | ok scopes =>
    rw [hadd] at hrun
    cases hrun
    obtain ⟨hfree, hnew, rfl⟩ := Scopes.add_ok hadd
    exact hs.declared hfree hnew

theorem function {x : String} {k k' : Reference → Analysis β}
    (hk : ∀ base f, base.Owns f → Accord base 0 0 (k f) (k' f)) :
    Accord base n n (Analysis.declare x Declared.function.entity >>= k)
      (Analysis.declare x Declared.function.entity >>= k') := by
  intro s hs
  have hdeclare : Accord base n n (Analysis.declare x Declared.function.entity) _ := declare .function x
  have hcontinues := (hdeclare s hs).2
  rw [Analysis.runFrom_bind, Analysis.runFrom_bind, Analysis.runFrom_declare]
  rw [Analysis.runFrom_declare] at hcontinues
  cases hadd : s.scopes.add (Symbol.ofEntity x Declared.function.entity) with
  | error e => exact ⟨rfl, fun _ _ h => by cases h⟩
  | ok scopes =>
    rw [hadd] at hcontinues
    have hscopes := hcontinues _ _ rfl
    obtain ⟨-, -, rfl⟩ := Scopes.add_ok hadd
    obtain ⟨hsame, hlater⟩ := hk (s.scopes.declared .function x) _ (s.scopes.owns_reference x)
      { s with scopes := s.scopes.declared .function x } (.refl _)
    exact ⟨hsame, fun y s' hrun => hscopes.trans (hlater y s' hrun)⟩

theorem congruence {u u' : Reference → Analysis Unit} (hu : Analysis.Idle u) (hu' : Analysis.Idle u') :
    Congruence Accord (fun base f => ∀ r, f = some r → base.Owns r) u u' where
  held_none _ h := by cases h
  pure x s hs := ⟨rfl, fun _ _ h => by cases h; exact hs⟩
  throw e s hs := ⟨rfl, fun _ _ h => by cases h⟩
  bind := bind
  remark _ := modify fun _ hs => hs
  get_bind _ hk s hs := hk s s hs
  print _ := modify fun _ hs => hs
  postpone _ := modify fun _ hs => hs
  enter name := modify fun _ hs => hs.enter name
  exit := modify fun _ hs => hs.exit
  setType x t := modify fun s hs => hs.of_sketch (s.scopes.setType_sketch x t)
  declare := declare
  function hk := function fun base f hf => hk base f fun r hr => by cases hr; exact hf
  changeAt _ hchange := modify fun _ hs => hs.of_sketch (Scopes.changeAt_sketch hchange)
  update hf s hs := by
    have howns := hs.owns _ (hf _ rfl)
    rw [hu _ s howns, hu' _ s howns]
    exact ⟨rfl, fun _ _ h => by cases h; exact hs⟩

end Accord

theorem Tree.visitWith_eq {update : Reference → Analysis Unit} (h : Analysis.Idle update) (t : Tree)
    {manner : Manner} {s : AnalysisState} (hm : ∀ r, manner.function = some r → s.scopes.Owns r) :
    (t.visitWith update manner).runFrom s = (t.visit manner).runFrom s := by
  rw [← t.visitWith_updateSymbol]
  exact ((Accord.congruence h Analysis.updateSymbol_idle).visit t s.scopes 0 manner hm s (.refl _)).1

theorem Accord.ordinary : Congruence Accord (fun base f => ∀ r, f = some r → base.Owns r) Analysis.updateSymbol
    Analysis.updateSymbol :=
  congruence Analysis.updateSymbol_idle Analysis.updateSymbol_idle

theorem Tree.visit_accord (t : Tree) {base : Scopes} {n : Nat} {manner : Manner}
    (hm : ∀ r, manner.function = some r → base.Owns r) : Accord base n n (t.visit manner) (t.visit manner) := by
  rw [← t.visitWith_updateSymbol]
  exact Accord.ordinary.visit t base n manner hm

def Standing.Knows (g : Standing) (manner : Manner) : Prop :=
  ∀ r, manner.function = some r → g.scopes.Owns r

theorem Standing.knows_alone (g : Standing) : g.Knows .alone :=
  fun _ h => by cases h

theorem Standing.knows_none (g : Standing) (scope : Option String) : g.Knows (.inside scope none) :=
  fun _ h => by cases h

theorem Runs.continues {α : Type} {g g' : Standing} {a : Analysis α} {x : α} (ha : Accord g.scopes 0 0 a a)
    (h : Runs g a (.ok x) g') : g.scopes.Continues 0 g'.scopes := by
  obtain ⟨s', hrun, rfl⟩ := h (g.withLog AnalysisState.start.log) rfl
  exact (ha _ (.refl _)).2 x s' hrun

theorem Runs.updateSymbol {g : Standing} {r : Reference} (h : g.scopes.Owns r) :
    Runs g (Analysis.updateSymbol r) (.ok ()) g := by
  rintro s rfl
  exact ⟨s, Analysis.updateSymbol_idle r s h, rfl⟩

end CompiScript
