import CompiScript.Analysis.Visit
import CompiScript.Proofs.Steps

namespace CompiScript

open Syntax

def Standing.withLog (g : Standing) (j : Log.Journal) : AnalysisState :=
  ⟨g.scopes, g.inPrint, g.inReturn, j⟩

def Runs {α : Type} (g : Standing) (a : Analysis α) (r : Except AnalysisError α) (g' : Standing) :
    Prop :=
  ∀ s : AnalysisState, s.standing = g → ∃ s', a.runFrom s = (r, s') ∧ s'.standing = g'

namespace Analysis

variable {α β : Type}

theorem runFrom_bind (a : Analysis α) (k : α → Analysis β) (s : AnalysisState) :
    (a >>= k).runFrom s =
      match a.runFrom s with
      | (.ok v, s') => (k v).runFrom s'
      | (.error e, s') => (.error e, s') := by
  simp only [runFrom, ExceptT.run, bind, ExceptT.bind, ExceptT.mk, StateT.bind, StateT.run]
  rcases a s with ⟨v | e, s'⟩ <;> rfl

end Analysis

namespace Runs

variable {α β : Type} {g g₁ g₂ : Standing}

theorem pure (v : α) : Runs g (Pure.pure v) (.ok v) g :=
  fun s hs => ⟨s, rfl, hs⟩

theorem throw (e : AnalysisError) : Runs g (MonadExcept.throw e : Analysis α) (.error e) g :=
  fun s hs => ⟨s, rfl, hs⟩

theorem bind_ok {a : Analysis α} {v : α} {k : α → Analysis β} {r : Except AnalysisError β}
    (ha : Runs g a (.ok v) g₁) (hk : Runs g₁ (k v) r g₂) : Runs g (a >>= k) r g₂ := by
  intro s hs
  obtain ⟨s₁, h₁, hs₁⟩ := ha s hs
  obtain ⟨s₂, h₂, hs₂⟩ := hk s₁ hs₁
  exact ⟨s₂, by rw [Analysis.runFrom_bind, h₁]; exact h₂, hs₂⟩

theorem bind_error {a : Analysis α} {e : AnalysisError} {k : α → Analysis β}
    (ha : Runs g a (.error e) g₁) : Runs g (a >>= k) (.error e) g₁ := by
  intro s hs
  obtain ⟨s₁, h₁, hs₁⟩ := ha s hs
  exact ⟨s₁, by rw [Analysis.runFrom_bind, h₁], hs₁⟩

theorem bind {a : Analysis α} {r : Except AnalysisError α} {k : α → Analysis β}
    {f : α → Except AnalysisError β} (ha : Runs g a r g) (hk : ∀ v, Runs g (k v) (f v) g) :
    Runs g (a >>= k) (r >>= f) g := by
  cases r with
  | ok v => exact ha.bind_ok (hk v)
  | error e => exact ha.bind_error

theorem remark (text : String) : Runs g (Analysis.remark text) (.ok ()) g :=
  fun s hs => ⟨{ s with log := s.log.note ⟨.debug, text⟩ }, rfl, hs⟩

theorem remark_bind {text : String} {k : Unit → Analysis α} {r : Except AnalysisError α}
    (hk : Runs g (k ()) r g₁) : Runs g (Analysis.remark text >>= k) r g₁ :=
  (Runs.remark text).bind_ok hk

theorem find (name : String) (c : Category) :
    Runs g (Analysis.find? name c) (.ok (g.scopes.find? name (some c))) g := by
  rintro s rfl
  exact ⟨s, rfl, rfl⟩

theorem currentText : Runs g Analysis.currentText (.ok g.scopes.current.describe) g := by
  rintro s rfl
  exact ⟨s, rfl, rfl⟩

theorem modify {f : AnalysisState → AnalysisState} (f' : Standing → Standing)
    (h : ∀ s, (f s).standing = f' s.standing) : Runs g (modify f) (.ok ()) (f' g) := by
  rintro s rfl
  exact ⟨f s, rfl, h s⟩

theorem modifyScopes (f : Scopes → Scopes) :
    Runs g (Analysis.modifyScopes f) (.ok ()) { g with scopes := f g.scopes } :=
  .modify (fun g => { g with scopes := f g.scopes }) fun _ => rfl

theorem getScopes : Runs g Analysis.getScopes (.ok g.scopes) g := by
  rintro s rfl
  exact ⟨s, rfl, rfl⟩

theorem symbolOf (r : Reference) : Runs g (Analysis.symbolOf r) (.ok (g.scopes.at? r)) g := by
  rintro s rfl
  exact ⟨s, rfl, rfl⟩

theorem paramsShown (symbol : Option Symbol) :
    Runs g (Analysis.paramsShown symbol)
      (.ok (paramsText? ((symbol.bind Symbol.params?).map fun ps => ps.types g.scopes.current.table))) g :=
  Runs.getScopes.bind_ok (.pure _)

theorem tryScopes_ok {f : Scopes → Except SymbolError Scopes} {scopes : Scopes} (h : f g.scopes = .ok scopes) :
    Runs g (Analysis.tryScopes f) (.ok ()) { g with scopes := scopes } := by
  refine Runs.getScopes.bind_ok ?_
  simp only [h]
  exact .modifyScopes _

theorem tryScopes_error {f : Scopes → Except SymbolError Scopes} {e : SymbolError} (h : f g.scopes = .error e) :
    Runs g (Analysis.tryScopes f) (.error (.symbol e)) g := by
  refine Runs.getScopes.bind_ok ?_
  simp only [h]
  exact .throw _

theorem declare_ok {name : String} {entity : Entity} {scopes : Scopes}
    (h : g.scopes.add (Symbol.ofEntity name entity) = .ok scopes) :
    Runs g (Analysis.declare name entity) (.ok (scopes.reference name)) { g with scopes := scopes } :=
  (tryScopes_ok h).bind_ok (Runs.getScopes.bind_ok (.pure _))

theorem declare_error {name : String} {entity : Entity} {e : SymbolError}
    (h : g.scopes.add (Symbol.ofEntity name entity) = .error e) :
    Runs g (Analysis.declare name entity) (.error (.symbol e)) g :=
  (tryScopes_error h).bind_error

theorem check (r : Except AnalysisError Unit) : Runs g (Analysis.check r) r g := by
  cases r with
  | ok _ => exact .pure ()
  | error e => exact .throw e

theorem get_bind {k : AnalysisState → Analysis α} {r : Except AnalysisError α}
    (hk : ∀ s : AnalysisState, s.standing = g → Runs g (k s) r g₁) : Runs g (get >>= k) r g₁ :=
  fun s hs => hk s hs s hs

theorem remarks (texts : List String) : Runs g (texts.forM Analysis.remark) (.ok ()) g := by
  induction texts with
  | nil => exact .pure ()
  | cons text texts ih => exact (Runs.remark text).bind_ok ih

theorem checkRemarking (r : Except AnalysisError (List String)) :
    Runs g (Analysis.checkRemarking r) (r.map fun _ => ()) g := by
  cases r with
  | ok texts => exact .remarks texts
  | error e => exact .throw e

theorem typeOf {c : Child} {r : Except AnalysisError (Option Ty)}
    (h : Runs g (c.visit .alone) (r.map .type) g) : Runs g (Analysis.typeOf c) r g := by
  cases r with
  | ok t => exact h.bind_ok (.pure t)
  | error e => exact h.bind_error

end Runs

end CompiScript
