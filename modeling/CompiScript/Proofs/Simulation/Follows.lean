import CompiScript.Proofs.Ownership

/-!
The analysis of the tree of a program takes the steps of the program: it ends where they end, with
the same error or with none.
-/

namespace CompiScript

open Syntax

/-- An analysis that takes the given steps; `post` relates what it gives to the type on the last
stage. -/
structure Follows {α : Type} (g : Stage) (a : Analysis α) (steps : List Step)
    (post : α → Option Ty → Prop) : Prop where
  ok : ∀ g', execute steps g = (none, g') →
    ∃ v, Runs g.toStanding a (.ok v) g'.toStanding ∧ post v g'.type
  error : ∀ e g', execute steps g = (some e, g') → Runs g.toStanding a (.error e) g'.toStanding

theorem Runs.discard {α : Type} {g g' : Standing} {a : Analysis α} {r : Except AnalysisError α}
    (h : Runs g a r g') : Runs g (discard a) (r.map fun _ => ()) g' := by
  intro s hs
  obtain ⟨s', hrun, hs'⟩ := h s hs
  refine ⟨s', ?_, hs'⟩
  have hmap : (Functor.discard a).runFrom s = (a >>= fun _ => Pure.pure ()).runFrom s := by
    simp only [Functor.discard, Functor.mapConst, ExceptT.map, Analysis.runFrom, ExceptT.run,
      ExceptT.mk, Function.comp, Function.const, StateT.run]
    rfl
  rw [hmap, Analysis.runFrom_bind, hrun]
  cases r <;> rfl

namespace Follows

variable {α β : Type} {g : Stage} {a : Analysis α} {k : α → Analysis β} {steps more : List Step}
  {post : α → Option Ty → Prop} {last : β → Option Ty → Prop}

theorem pure {v : α} (h : post v g.type) : Follows g (Pure.pure v) [] post := by
  refine ⟨?_, by simp [execute]⟩
  rintro g' ⟨⟩
  exact ⟨v, .pure v, h⟩

theorem quiet_bind {v : α} (ha : Runs g.toStanding a (.ok v) g.toStanding)
    (hk : Follows g (k v) steps last) : Follows g (a >>= k) steps last := by
  constructor
  · intro g' he
    obtain ⟨w, hw, hlast⟩ := hk.ok g' he
    exact ⟨w, ha.bind_ok hw, hlast⟩
  · intro e g' he
    exact ha.bind_ok (hk.error e g' he)

theorem remark_bind {text : String} {k : Unit → Analysis β} (hk : Follows g (k ()) steps last) :
    Follows g (Analysis.remark text >>= k) steps last :=
  quiet_bind (.remark text) hk

theorem get_bind {k : AnalysisState → Analysis β} {b : Analysis β}
    (hk : ∀ s : AnalysisState, s.standing = g.toStanding → k s = b) (hb : Follows g b steps last) :
    Follows g (get >>= k) steps last := by
  constructor
  · intro g' he
    obtain ⟨w, hw, hlast⟩ := hb.ok g' he
    exact ⟨w, .get_bind fun s hs => hk s hs ▸ hw, hlast⟩
  · intro e g' he
    exact .get_bind fun s hs => hk s hs ▸ hb.error e g' he

theorem bind_run (ha : Follows g a steps post)
    (hk : ∀ v g', Runs g.toStanding a (.ok v) g'.toStanding → post v g'.type → Follows g' (k v) more last) :
    Follows g (a >>= k) (steps ++ more) last := by
  have hnext : ∀ g₁, execute steps g = (none, g₁) →
      ∃ v, Runs g.toStanding a (.ok v) g₁.toStanding ∧ Follows g₁ (k v) more last := by
    intro g₁ he
    obtain ⟨v, hv, hpost⟩ := ha.ok g₁ he
    exact ⟨v, hv, hk v g₁ hv hpost⟩
  constructor
  · intro g' he
    rw [execute_append] at he
    split at he
    · next g₁ h₁ =>
      obtain ⟨v, hv, hf⟩ := hnext g₁ h₁
      obtain ⟨w, hw, hlast⟩ := hf.ok g' he
      exact ⟨w, hv.bind_ok hw, hlast⟩
    · cases he
  · intro e g' he
    rw [execute_append] at he
    split at he
    · next g₁ h₁ =>
      obtain ⟨v, hv, hf⟩ := hnext g₁ h₁
      exact hv.bind_ok (hf.error e g' he)
    · next h₁ =>
      cases he
      exact (ha.error e g' h₁).bind_error

theorem bind (ha : Follows g a steps post)
    (hk : ∀ v g', post v g'.type → Follows g' (k v) more last) :
    Follows g (a >>= k) (steps ++ more) last :=
  ha.bind_run fun v g' _ => hk v g'

theorem step {s : Step}
    (hok : ∀ g', s.run g = .ok g' → ∃ v, Runs g.toStanding a (.ok v) g'.toStanding ∧ post v g'.type)
    (herror : ∀ e, s.run g = .error e → Runs g.toStanding a (.error e) g.toStanding) :
    Follows g a [s] post := by
  constructor
  · intro g' he
    simp only [execute] at he
    split at he
    · next h => cases he; exact hok g' h
    · cases he
  · intro e g' he
    simp only [execute] at he
    split at he
    · cases he
    · next h => cases he; exact herror e h

theorem step_ok {s : Step} {v : α} {n : Stage} (hs : s.run g = .ok n)
    (ha : Runs g.toStanding a (.ok v) n.toStanding) (hpost : post v n.type) :
    Follows g a [s] post := by
  refine step ?_ (by simp [hs])
  intro g₁ h₁
  rw [hs] at h₁
  cases h₁
  exact ⟨v, ha, hpost⟩

theorem step_bind {s : Step} {v : α} {n : Stage} (hs : s.run g = .ok n)
    (ha : Runs g.toStanding a (.ok v) n.toStanding) (hk : Follows n (k v) more last) :
    Follows g (a >>= k) (s :: more) last := by
  constructor
  · intro g₁ he
    simp only [execute, hs] at he
    obtain ⟨w, hw, hlast⟩ := hk.ok g₁ he
    exact ⟨w, ha.bind_ok hw, hlast⟩
  · intro e g₁ he
    simp only [execute, hs] at he
    exact ha.bind_ok (hk.error e g₁ he)

theorem refuse {s : Step} {e : AnalysisError} (hs : s.run g = .error e)
    (ha : Runs g.toStanding a (.error e) g.toStanding) : Follows g a (s :: steps) post := by
  constructor
  · intro g' he
    simp [execute, hs] at he
  · intro e' g' he
    simp only [execute, hs, Prod.mk.injEq, Option.some.injEq] at he
    obtain ⟨rfl, rfl⟩ := he
    exact ha

theorem skip {s : Step} {n : Stage} (hs : s.run g = .ok n) (hg : n.toStanding = g.toStanding)
    (ha : Follows n a steps post) : Follows g a (s :: steps) post := by
  constructor
  · intro g₁ he
    simp only [execute, hs] at he
    rw [← hg]
    exact ha.ok g₁ he
  · intro e g₁ he
    simp only [execute, hs] at he
    rw [← hg]
    exact ha.error e g₁ he

theorem mono {post' : α → Option Ty → Prop} (h : Follows g a steps post)
    (hp : ∀ v t, post v t → post' v t) : Follows g a steps post' := by
  refine ⟨?_, h.error⟩
  intro g' he
  obtain ⟨v, hv, hpost⟩ := h.ok g' he
  exact ⟨v, hv, hp v _ hpost⟩

theorem discard (h : Follows g a steps post) : Follows g (discard a) steps fun _ _ => True := by
  constructor
  · intro g' he
    obtain ⟨v, hv, -⟩ := h.ok g' he
    exact ⟨(), hv.discard, trivial⟩
  · intro e g' he
    exact (h.error e g' he).discard

theorem then_pure {f : α → β} (h : Follows g a steps post) (hf : ∀ v t, post v t → last (f v) t) :
    Follows g (a >>= fun v => Pure.pure (f v)) steps last := by
  rw [← List.append_nil steps]
  exact h.bind fun v g' hv => .pure (hf v g'.type hv)

theorem typeOf {c : Child} (h : Follows g (c.visit .alone) steps fun v t => v = .type t) :
    Follows g (Analysis.typeOf c) steps fun v t => v = t := by
  refine h.then_pure (f := Value.type?) ?_
  rintro v t rfl
  rfl

end Follows

end CompiScript
