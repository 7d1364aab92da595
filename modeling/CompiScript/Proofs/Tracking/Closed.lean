import CompiScript.Proofs.Tracking.Stacks

namespace CompiScript

open Phrase

def Rule.firm (r : Rule) : Bool :=
  [Rule.block, .funAnon, .array, .instantiation, .primary].contains r

def Phrase.firm : Phrase → Bool
  | nothing => false
  | token _ => true
  | oneOf _ => true
  | rule r => r.firm
  | seq _ b => b.firm
  | option _ _ => false
  | many _ _ => false
  | either _ a b => a.firm && b.firm

theorem Phrase.nullable_of_firm {p : Phrase} (h : p.firm = true) : p.nullable = false := by
  induction p with
  | seq a b iha ihb =>
    simp only [nullable, ihb h, Bool.and_false]
  | either c a b iha ihb =>
    simp only [firm, Bool.and_eq_true] at h
    simp only [nullable, iha h.1, ihb h.2, Bool.or_self]
  | nothing => cases h
  | option c a ih => cases h
  | many c a ih => cases h
  | _ => rfl

theorem Rule.firm_phrase {r : Rule} (h : r.firm = true) : r.subtle = false ∧ r.phrase.firm = true := by
  revert h
  cases r <;> decide

namespace Ahead

variable {k : Kind}

def Closed (stack : List Ahead) : Prop :=
  ∀ a, stack.getLast? = some a → ∃ p, a = phrase p ∧ p.firm = true

theorem closed_nil : Closed [] :=
  nofun

theorem closed_concat {stack : List Ahead} {p : Phrase} (hp : p.firm = true) : Closed (stack ++ [phrase p]) := by
  intro a ha
  rw [List.getLast?_concat] at ha
  cases ha
  exact ⟨p, rfl, hp⟩

theorem Closed.append {stack rest : List Ahead} (hstack : rest = [] → Closed stack) (hrest : Closed rest) :
    Closed (stack ++ rest) := by
  cases rest with
  | nil =>
    rw [List.append_nil]
    exact hstack rfl
  | cons b rest =>
    intro a ha
    rw [List.getLast?_append, List.getLast?_cons, Option.some_or, ← List.getLast?_cons] at ha
    exact hrest a ha

theorem Closed.tail {a : Ahead} {rest : List Ahead} (h : Closed (a :: rest)) : Closed rest := by
  cases rest with
  | nil => exact closed_nil
  | cons b rest =>
    intro c hc
    rw [← List.getLast?_cons_cons (a := a)] at hc
    exact h c hc

theorem Closed.eq_nil {stack : List Ahead} (h : Closed stack) (hskip : stack.all skippable = true) :
    stack = [] := by
  cases hlast : stack.getLast? with
  | none => exact List.getLast?_eq_none_iff.mp hlast
  | some a =>
    obtain ⟨p, rfl, hp⟩ := h a hlast
    have hnullable := List.all_eq_true.mp hskip _ (List.mem_of_getLast? hlast)
    rw [skippable, Phrase.nullable_of_firm hp] at hnullable
    cases hnullable

theorem readPhrase_closed {readRule : Rule → Kind → Option (List Ahead)}
    (hrule : ∀ r left, r.firm = true → readRule r k = some left → Closed left) {p : Phrase}
    (hp : p.firm = true) {left : List Ahead} (h : readPhrase readRule p k = some left) : Closed left := by
  induction p generalizing left with
  | token t =>
    simp only [readPhrase, Option.ite_none_right_eq_some, Option.some.injEq] at h
    rw [← h.2]
    exact closed_nil
  | oneOf ts =>
    simp only [readPhrase, Option.ite_none_right_eq_some, Option.some.injEq] at h
    rw [← h.2]
    exact closed_nil
  | rule r => exact hrule r left hp h
  | seq a b iha ihb =>
    simp only [readPhrase] at h
    split at h
    · cases h
      exact closed_concat hp
    · split at h
      · exact ihb hp h
      · cases h
  | either c a b iha ihb =>
    simp only [Phrase.firm, Bool.and_eq_true] at hp
    rcases readPhrase_either h with h | h
    · exact iha hp.1 h
    · exact ihb hp.2 h
  | nothing => cases hp
  | option c a ih => cases hp
  | many c a ih => cases hp

theorem readRule_closed {n : Nat} {r : Rule} {left : List Ahead} (hr : r.firm = true)
    (h : readRule n r k = some left) : Closed left := by
  induction n generalizing r left with
  | zero => cases h
  | succ n ih =>
    obtain ⟨hsubtle, hphrase⟩ := Rule.firm_phrase hr
    rw [readRule_of_ne] at h
    · exact readPhrase_closed (fun _ _ => ih) hphrase h
    · exact .inl fun hr' => by rw [hr'] at hsubtle; cases hsubtle
    · exact fun hr' => by rw [hr'] at hsubtle; cases hsubtle

theorem step_closed {stack left : List Ahead} (hstack : Closed stack) (h : step stack k = some left) :
    Closed left := by
  induction stack with
  | nil => cases h
  | cons a rest ih =>
    simp only [step] at h
    split at h
    · next inner hread =>
      cases h
      refine .append ?_ hstack.tail
      rintro rfl
      obtain ⟨p, rfl, hp⟩ := hstack a rfl
      exact readPhrase_closed (fun _ _ => readRule_closed) hp hread
    · split at h
      · exact ih hstack.tail h
      · cases h

end Ahead

end CompiScript
