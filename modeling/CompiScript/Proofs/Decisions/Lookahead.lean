import CompiScript.Proofs.Tracking.Closed

namespace CompiScript

open Phrase

def Token.kinds (tokens : List Token) : List Kind :=
  tokens.map (·.kind) ++ [.eof]

section Tokens

variable {tokens : List Token} {u v w : List Kind} {k l : Kind} {p : Position}

theorem kinds_eq_cons (h : Token.kinds tokens = k :: w) (hw : w ≠ []) :
    ∃ t ts, tokens = t :: ts ∧ t.kind = k ∧ Token.kinds ts = w := by
  cases tokens with
  | nil =>
    cases h
    exact absurd rfl hw
  | cons t ts =>
    cases h
    exact ⟨t, ts, rfl, rfl, rfl⟩

theorem kinds_eq_append (h : Token.kinds tokens = u ++ v) (hv : v ≠ []) :
    ∃ used rest, tokens = used ++ rest ∧ used.map (·.kind) = u ∧ Token.kinds rest = v := by
  induction u generalizing tokens with
  | nil => exact ⟨[], tokens, rfl, rfl, h⟩
  | cons k u ih =>
    obtain ⟨t, ts, rfl, rfl, hts⟩ := kinds_eq_cons h (by simp [hv])
    obtain ⟨used, rest, rfl, rfl, hrest⟩ := ih hts
    exact ⟨t :: used, rest, rfl, rfl, hrest⟩

theorem look_kinds {n : Nat} (h : (Token.kinds tokens)[n]? = some k) :
    ∃ t, look (.finish p) tokens n = .ok t ∧ t.kind = k := by
  rw [Token.kinds] at h
  by_cases hn : n < tokens.length
  · refine ⟨tokens[n], by simp [look, hn], ?_⟩
    rw [List.getElem?_append_left (by simpa using hn)] at h
    simpa [hn] using h
  · refine ⟨Token.eof p, by simp [look, hn, Ending.token], ?_⟩
    rw [List.getElem?_append_right (by simpa using hn)] at h
    have hk := List.mem_of_getElem? h
    rw [List.mem_singleton] at hk
    rw [hk]
    rfl

theorem canEnd_cons {p : Phrase} {ps : List Phrase} (h : canEnd ps = false) : canEnd (p :: ps) = false := by
  rw [canEnd] at h
  simp [canEnd, h]

theorem kinds_ne_nil (tokens : List Token) : Token.kinds tokens ≠ [] := by
  simp [Token.kinds]

theorem look_first (tokens : List Token) (p : Position) :
    ∃ t w, look (.finish p) tokens 0 = .ok t ∧ Token.kinds tokens = t.kind :: w := by
  cases tokens with
  | nil => exact ⟨Token.eof p, [], rfl, rfl⟩
  | cons t ts => exact ⟨t, Token.kinds ts, rfl, rfl⟩

theorem canEnd_of_yields_nil {ps : List Phrase} (h : Yields ps []) : canEnd ps = true := by
  induction ps with
  | nil => rfl
  | cons p ps ih =>
    obtain ⟨u, v, hw, hp, hps⟩ := h
    obtain ⟨rfl, rfl⟩ := List.append_eq_nil_iff.mp hw.symm
    simp only [canEnd, List.all_cons, Bool.and_eq_true]
    exact ⟨gives_nil_iff.mp hp, ih hps⟩

theorem Yields.ne_nil {ps : List Phrase} (h : Yields ps w) (hps : canEnd ps = false) : w ≠ [] := by
  rintro rfl
  rw [canEnd_of_yields_nil h] at hps
  cases hps

end Tokens

namespace Ahead

variable {settle : Bool → List Ahead → Kind → Option Bool} {p : Position}

theorem follow_settled {ended : Bool} {seen : String} {stack : List Ahead} {tokens : List Token} {k : Kind}
    {w : List Kind} {b : Bool} (hk : Token.kinds tokens = k :: w) (h : settle ended stack k = some b) :
    follow settle (.finish p) ended seen stack tokens = .ok b := by
  cases tokens with
  | nil =>
    cases hk
    have heof : (Token.eof p).kind = .eof := rfl
    simp [follow, Ending.token, bind, Except.bind, heof, h]
    rfl
  | cons t ts =>
    cases hk
    simp [follow, h]
    rfl

theorem follow_step {ending : Ending} {ended : Bool} {seen : String} {stack left : List Ahead} {t : Token}
    {ts : List Token} (hsettle : settle ended stack t.kind = none) (hstep : step stack t.kind = some left) :
    follow settle ending ended seen stack (t :: ts) =
      follow settle ending (ended || left.all skippable) (seen ++ t.text) left ts := by
  simp [follow, hsettle, hstep]

theorem follow_inner (ending : Ending) (inner : List Ahead) {more : List Ahead}
    (hsettle : ∀ ended stack k, stack ≠ [] → settle ended (stack ++ more) k = none)
    (hfits : fitsAll (canStart []) inner = true) (hclosed : Closed inner)
    {used rest : List Token} (h : Yields (inner.map content) (used.map (·.kind))) (ended : Bool) (seen : String) :
    ∃ ended' seen', follow settle ending ended seen (inner ++ more) (used ++ rest) =
      follow settle ending ended' seen' more rest := by
  induction used generalizing inner ended seen with
  | nil =>
    have hend := canEnd_of_yields_nil h
    simp only [canEnd, List.all_map, Function.comp_def, nullable_content] at hend
    cases hclosed.eq_nil hend
    exact ⟨ended, seen, rfl⟩
  | cons t used ih =>
    have hne : inner ≠ [] := by
      rintro rfl
      cases h
    rw [← List.append_nil (inner.map content)] at h
    rcases step_tracks hfits .nil h with ⟨left, hstep, hleft⟩ | ⟨-, -, hnil⟩
    · rw [List.append_nil] at hleft
      obtain ⟨ended', seen', hfollow⟩ := ih left (step_fits hfits hstep) (step_closed hclosed hstep) hleft
        (ended || (left ++ more).all skippable) (seen ++ t.text)
      refine ⟨ended', seen', ?_⟩
      rw [List.cons_append, follow_step (hsettle _ _ _ hne) (step_append hstep)]
      exact hfollow
    · cases hnil

end Ahead

end CompiScript
