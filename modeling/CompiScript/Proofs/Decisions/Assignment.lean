import CompiScript.Proofs.Decisions.Suffixes

namespace CompiScript

open Phrase

namespace Choice

open Ahead
variable {C : List Phrase} {p : Position} {tokens : List Token}

section Assignment

variable (hfollow : ∀ k, canStart C k = true → Rule.assignment.follow k = true) (hend : canEnd C = false)
  {k : Kind} {w : List Kind} (hk : Token.kinds tokens = k :: w)

include hfollow hend hk

theorem follow_name (hidentifier : k = .identifier) (hw : Yields (target.content :: C) w) :
    ∃ b, follow settleAssignment (.finish p) false "" [phrase (.rule .assignment)] tokens = .ok b ∧
      AssignmentGoes C tokens b := by
  subst hidentifier
  have hw' : w ≠ [] := hw.ne_nil (canEnd_cons hend)
  obtain ⟨s, rest, rfl, hs, rfl⟩ := kinds_eq_cons hk hw'
  rw [follow_step rfl (by rw [hs]; rfl)]
  obtain ⟨l, v, hl⟩ := List.exists_cons_of_ne_nil (kinds_ne_nil rest)
  rw [hl] at hw
  rcases yields_target_cons.mp hw with ⟨rfl, hv⟩ | hv
  · refine ⟨true, follow_settled hl rfl, ?_⟩
    rw [AssignmentGoes, hk, hl]
    exact yields_assigned.mpr (.inl ⟨v, rfl, hv⟩)
  · rw [← hl] at hv
    obtain ⟨b, hb, hgoes⟩ := follow_suffixes hfollow hend (.inl rfl) hv _ _
    exact ⟨b, hb, assignmentGoes_of_operand gives_identifier hk hgoes⟩

theorem follow_operand (h : Yields (rule .primary :: operand.content :: C) (k :: w)) :
    ∃ b, follow settleAssignment (.finish p) false "" [phrase (.rule .assignment)] tokens = .ok b ∧
      AssignmentGoes C tokens b := by
  by_cases hidentifier : k = .identifier
  · subst hidentifier
    obtain ⟨u, v, huv, hu, hv⟩ := h
    cases u with
    | nil => cases gives_nil_iff.mp hu
    | cons l u =>
      cases huv
      cases gives_primary_identifier hu
      exact follow_name hfollow hend hk rfl (yields_either.mpr (.inr hv))
  have hfun : k ≠ .funWord := by
    rintro rfl
    cases h.starts_rule
  have hfirst : ∀ left, readRule Rule.depth .primary k = some left →
      readRule Rule.depth .assignment k = some (left ++ [operand]) := by
    intro left hread
    have hread' : readPhrase (readRule 15) Rule.primary.phrase k = some left := hread
    rw [Rule.depth, readRule_assignment hidentifier hfun, hread']
  obtain ⟨u, rest, hsplit, hu, hrest, ended, seen, hfollow'⟩ := follow_first .primary operand rfl hfirst hend hk h
  obtain ⟨b, hb, hgoes⟩ := follow_suffixes hfollow hend (.inr rfl) hrest ended seen
  exact ⟨b, hfollow'.trans hb, assignmentGoes_of_operand hu hsplit hgoes⟩

theorem follow_function (h : Yields (rule .funAnon :: function.content :: C) (k :: w)) :
    ∃ b, follow settleAssignment (.finish p) false "" [phrase (.rule .assignment)] tokens = .ok b ∧
      AssignmentGoes C tokens b := by
  have hstarts := h.starts_rule
  have hfun : k = .funWord := by
    revert hstarts
    cases k <;> first | exact fun _ => rfl | exact nofun
  subst hfun
  have hfirst : ∀ left, readRule Rule.depth .funAnon .funWord = some left →
      readRule Rule.depth .assignment .funWord = some (left ++ [function]) := by
    intro left hread
    have hread' : readPhrase (readRule 15) Rule.funAnon.phrase .funWord = some left := hread
    simp [Rule.depth, readRule, hread']
  obtain ⟨u, rest, hsplit, hu, hrest, ended, seen, hfollow'⟩ := follow_first .funAnon function rfl hfirst hend hk h
  obtain ⟨l, v, hl⟩ := List.exists_cons_of_ne_nil (kinds_ne_nil rest)
  refine ⟨l = .dot, hfollow'.trans (follow_settled hl rfl), assignmentGoes_of_function hu hsplit ?_⟩
  rw [Goes, hl]
  rw [hl] at hrest
  rcases yields_function_cons.mp hrest with ⟨rfl, hv⟩ | hv
  · exact yields_row.mpr (yields_token_cons.mpr ⟨rfl, hv⟩)
  · have hstart := hv.canStart_all
    rw [canStart_append] at hstart
    simpa [(trailing_ne l (frontAll_mono hfollow l hstart)).1] using hv

theorem chooseAssignment_right (h : Yields (rule .assignment :: C) (k :: w)) :
    ∃ b, chooseAssignment (.finish p) tokens = .ok b ∧ AssignmentGoes C tokens b := by
  obtain ⟨t, hlook, rfl⟩ : ∃ t, look (.finish p) tokens 0 = .ok t ∧ t.kind = k := look_kinds (by rw [hk]; rfl)
  have hchoose : t.kind ∉ [Kind.bang, .minus] → chooseAssignment (.finish p) tokens =
      follow settleAssignment (.finish p) false "" [phrase (.rule .assignment)] tokens := by
    intro hnot
    simp only [List.mem_cons, List.not_mem_nil, or_false, not_or] at hnot
    simp [chooseAssignment, hlook, bind, Except.bind, hnot.1, hnot.2]
  have hsign : ∀ r : Rule, r.starts .bang = false → r.starts .minus = false → r.starts t.kind = true →
      t.kind ∉ [Kind.bang, .minus] := by
    intro r hbang hminus hstarts
    simp only [List.mem_cons, List.not_mem_nil, or_false, not_or]
    constructor
    · intro hkind
      rw [hkind, hbang] at hstarts
      cases hstarts
    · intro hkind
      rw [hkind, hminus] at hstarts
      cases hstarts
  rcases yields_assignment.mp h with ⟨v, hv, hw⟩ | h | h | ⟨l, v, hl, hv, hw⟩
  · obtain ⟨hidentifier, rfl⟩ := List.cons.inj hv
    rw [hchoose (by rw [hidentifier]; decide)]
    exact follow_name hfollow hend hk hidentifier (yields_target_cons.mpr (.inl ⟨rfl, hw⟩))
  · rw [hchoose (hsign .primary rfl rfl h.starts_rule)]
    exact follow_operand hfollow hend hk h
  · rw [hchoose (hsign .funAnon rfl rfl h.starts_rule)]
    exact follow_function hfollow hend hk h
  · obtain ⟨rfl, rfl⟩ := List.cons.inj hv
    refine ⟨false, ?_, ?_⟩
    · simp only [List.mem_cons, List.not_mem_nil, or_false] at hl
      simp only [chooseAssignment, hlook, bind, Except.bind]
      rcases hl with hl | hl
      · rw [hl]
        rfl
      · rw [hl]
        rfl
    · rw [AssignmentGoes, hk]
      exact yields_logicOr.mpr (.inl ⟨t.kind, w, hl, rfl, hw⟩)

end Assignment

end Choice

end CompiScript
