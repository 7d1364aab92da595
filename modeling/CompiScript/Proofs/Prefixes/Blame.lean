import CompiScript.Proofs.Prefixes.Proper

namespace CompiScript

open Phrase

namespace SyntaxError

def token? : SyntaxError → Option Token
  | lexical _ => none
  | mismatched t _ => some t
  | extraneous t _ => some t
  | missing _ t => some t
  | noAlternative _ t => some t

end SyntaxError

/-- The token that the error stands at is one of those in front of the reader, and the phrases can be
completed behind the tokens before it. -/
def Blames (ending : Ending) (ps : List Phrase) (tokens : List Token) (e : SyntaxError) : Prop :=
  ∀ t, e.token? = some t → ∃ used rest, tokens = used ++ rest ∧ look ending rest 0 = .ok t ∧
    Viable ps (used.map (·.kind))

section Blames

variable {ending : Ending} {ps qs : List Phrase} {tokens : List Token} {e : SyntaxError}

theorem Blames.of_none (h : e.token? = none) : Blames ending ps tokens e := by
  intro t ht
  rw [h] at ht
  cases ht

theorem Blames.mono (h : ∀ w, Yields ps w → Yields qs w) (hb : Blames ending ps tokens e) :
    Blames ending qs tokens e := by
  intro t ht
  obtain ⟨used, rest, htokens, hlook, hviable⟩ := hb t ht
  exact ⟨used, rest, htokens, hlook, hviable.mono h⟩

theorem Blames.here {t : Token} (ht : e.token? = some t) (hlook : look ending tokens 0 = .ok t)
    (hps : ∀ p ∈ ps, p.proper = true) : Blames ending ps tokens e := by
  intro t' ht'
  cases ht.symm.trans ht'
  exact ⟨[], tokens, rfl, hlook, viable_nil hps⟩

theorem Blames.behind {used middle : List Token} (htokens : tokens = used ++ middle)
    (h : ∀ w, Yields ps w → Yields qs (used.map (·.kind) ++ w)) (hb : Blames ending ps middle e) :
    Blames ending qs tokens e := by
  intro t ht
  obtain ⟨more, rest, rfl, hlook, v, hv⟩ := hb t ht
  refine ⟨used ++ more, rest, by rw [htokens, List.append_assoc], hlook, v, ?_⟩
  rw [List.map_append, List.append_assoc]
  exact h _ hv

theorem look_error {n : Nat} (h : look ending tokens n = .error e) : e.token? = none := by
  simp only [look] at h
  split at h
  · cases h
  · cases ending with
    | finish p => cases h
    | fault x =>
      cases h
      rfl

theorem noAlternative_token {text : String} {s t : Token}
    (h : (noAlternative ending text s).token? = some t) : s = t := by
  cases ending with
  | finish p => exact Option.some.inj h
  | fault x => cases h

end Blames

section Decisions

variable {ending : Ending} {tokens : List Token} {e : SyntaxError}

namespace Ahead

theorem follow_error {settle : Bool → List Ahead → Kind → Option Bool} {ended : Bool} {seen : String}
    {stack : List Ahead} (h : follow settle ending ended seen stack tokens = .error e) {t : Token}
    (ht : e.token? = some t) :
    ∃ used rest left, tokens = used ++ rest ∧ look ending rest 0 = .ok t ∧
      run stack (used.map (·.kind)) = some left := by
  induction tokens generalizing ended seen stack with
  | nil =>
    refine ⟨[], [], stack, rfl, ?_, rfl⟩
    have hlook : look ending [] 0 = ending.token := rfl
    cases hend : ending.token with
    | error x =>
      rw [hend] at hlook
      simp only [follow, hend, bind, Except.bind] at h
      cases h
      rw [look_error hlook] at ht
      cases ht
    | ok s =>
      simp only [follow, hend, bind, Except.bind] at h
      split at h
      · cases h
      · cases h
        rw [hlook, hend, noAlternative_token ht]
  | cons s tokens ih =>
    simp only [follow] at h
    split at h
    · cases h
    split at h
    · next left hstep =>
      obtain ⟨used, rest, final, rfl, hlook, hrun⟩ := ih h
      refine ⟨s :: used, rest, final, rfl, hlook, ?_⟩
      simp [run, hstep, hrun]
    · cases h
      refine ⟨[], s :: tokens, stack, rfl, ?_, rfl⟩
      rw [noAlternative_token ht]
      rfl

theorem follow_blames {settle : Bool → List Ahead → Kind → Option Bool} {ended : Bool} {seen : String}
    {stack : List Ahead} (h : follow settle ending ended seen stack tokens = .error e)
    (hstack : ∀ a ∈ stack, a.content.proper = true) (ps : List Phrase)
    (hps : ∀ p ∈ ps, p.proper = true) : Blames ending (stack.map content ++ ps) tokens e := by
  intro t ht
  obtain ⟨used, rest, left, htokens, hlook, hrun⟩ := follow_error h ht
  have hleft : ∀ p ∈ left.map content ++ ps, p.proper = true := by
    refine List.forall_mem_append.mpr ⟨?_, hps⟩
    exact List.forall_mem_map.mpr (run_proper hstack hrun)
  obtain ⟨v, hv⟩ := exists_yields hleft
  exact ⟨used, rest, htokens, hlook, v, run_completes hrun hv⟩

end Ahead

end Decisions

end CompiScript
