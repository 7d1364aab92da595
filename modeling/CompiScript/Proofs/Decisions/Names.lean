import CompiScript.Proofs.Decisions.Assignment

namespace CompiScript

open Phrase

namespace Choice

open Ahead
variable {C : List Phrase} {p : Position} {tokens : List Token}

theorem settleFunction_inner (ended : Bool) (stack : List Ahead) (k : Kind) (h : stack ≠ []) :
    settleFunction ended (stack ++ []) k = none := by
  simp [settleFunction, h]

theorem chooseWhole_right (hend : canEnd C = false) (h : Yields (rule .expression :: C) (Token.kinds tokens)) :
    chooseWhole (.finish p) tokens = .ok true := by
  obtain ⟨t, w, hlook, hk⟩ := look_first tokens p
  by_cases hfun : t.kind = .funWord
  · have hfunction : Yields (rule .funAnon :: function.content :: C) (Token.kinds tokens) := by
      rw [hk, hfun] at h ⊢
      rcases yields_assignment.mp (yields_expression.mp h) with ⟨v, hv, -⟩ | h | h | ⟨l, v, hl, hv, -⟩
      · cases hv
      · cases h.starts_rule
      · exact h
      · cases hv
        simp at hl
    obtain ⟨u, v, huv, hu, hv⟩ := hfunction
    have hv' : v ≠ [] := hv.ne_nil (canEnd_cons hend)
    obtain ⟨used, rest, rfl, rfl, rfl⟩ := kinds_eq_append huv hv'
    obtain ⟨ended, seen, hfollow⟩ := follow_inner (.finish p) [phrase (.rule .funAnon)] settleFunction_inner rfl
      (fun a ha => ⟨_, (Option.some.inj ha).symm, rfl⟩) (yields_single.mpr hu) false ""
    obtain ⟨l, v, hl⟩ := List.exists_cons_of_ne_nil (kinds_ne_nil rest)
    simp only [chooseWhole, hlook, bind, Except.bind, hfun, if_true]
    exact hfollow.trans (follow_settled hl rfl)
  · simp [chooseWhole, hlook, bind, Except.bind, hfun]
    rfl

theorem chooseNamed_declared (h : Yields (rule .funDecl :: C) (Token.kinds tokens)) :
    chooseNamed (.finish p) tokens = .ok true := by
  obtain ⟨v, hk, hfunction⟩ := yields_token.mp (yields_seq.mp (yields_rule.mp h))
  obtain ⟨v, rfl, -⟩ := yields_token.mp (yields_row.mp (yields_rule.mp hfunction))
  obtain ⟨t, hlook, hkind⟩ : ∃ t, look (.finish p) tokens 0 = .ok t ∧ t.kind = .funWord := look_kinds (by rw [hk]; rfl)
  obtain ⟨t₂, hlook₂, hkind₂⟩ : ∃ t₂, look (.finish p) tokens 1 = .ok t₂ ∧ t₂.kind = .identifier :=
    look_kinds (by rw [hk]; rfl)
  simp [chooseNamed, hlook, hlook₂, bind, Except.bind, hkind, hkind₂]
  rfl

theorem chooseNamed_other (h : Yields (choose [rule .varDecl, rule .statement] :: C) (Token.kinds tokens)) :
    chooseNamed (.finish p) tokens = .ok false := by
  obtain ⟨t, w, hlook, hk⟩ := look_first tokens p
  by_cases hfun : t.kind = .funWord
  · rw [hk, hfun] at h
    rcases yields_either.mp h with h | h
    · cases h.starts_rule
    · obtain ⟨v, rfl, -⟩ := yields_token.mp (yields_statement_fun h)
      obtain ⟨t₂, hlook₂, hkind₂⟩ : ∃ t₂, look (.finish p) tokens 1 = .ok t₂ ∧ t₂.kind = .openParen :=
        look_kinds (by rw [hk]; rfl)
      simp [chooseNamed, hlook, hlook₂, bind, Except.bind, hfun, hkind₂]
      rfl
  · simp [chooseNamed, hlook, bind, Except.bind, hfun]
    rfl

theorem chooseTarget_name (h : Yields (row [token .identifier, token .equal, rule .assignment] :: C)
    (Token.kinds tokens)) : chooseTarget (.finish p) tokens = .ok false := by
  obtain ⟨v, hk, hv⟩ := yields_token.mp (yields_row.mp h)
  obtain ⟨v, rfl, -⟩ := yields_token.mp hv
  obtain ⟨t, hlook, hkind⟩ : ∃ t, look (.finish p) tokens 0 = .ok t ∧ t.kind = .identifier :=
    look_kinds (by rw [hk]; rfl)
  obtain ⟨t₂, hlook₂, hkind₂⟩ : ∃ t₂, look (.finish p) tokens 1 = .ok t₂ ∧ t₂.kind = .equal :=
    look_kinds (by rw [hk]; rfl)
  simp [chooseTarget, hlook, hlook₂, bind, Except.bind, hkind, hkind₂]
  rfl

theorem chooseTarget_object (h : Yields (row [rule .call, token .dot] :: C) (Token.kinds tokens)) :
    chooseTarget (.finish p) tokens = .ok true := by
  obtain ⟨t, w, hlook, hk⟩ := look_first tokens p
  by_cases hidentifier : t.kind = .identifier
  · rw [hk, hidentifier] at h
    rcases yields_call.mp (yields_row.mp h) with hcall | hcall
    · obtain ⟨u, v, huv, hu, hv⟩ := hcall
      cases u with
      | nil => cases gives_nil_iff.mp hu
      | cons l u =>
        cases huv
        cases gives_primary_identifier hu
        obtain ⟨l, v', rfl⟩ := List.exists_cons_of_ne_nil (hv.ne_nil rfl)
        have hl : l ≠ .equal := by
          rintro rfl
          cases hv.canStart_all
        obtain ⟨t₂, hlook₂, hkind₂⟩ : ∃ t₂, look (.finish p) tokens 1 = .ok t₂ ∧ t₂.kind = l :=
          look_kinds (by rw [hk]; rfl)
        simp [chooseTarget, hlook, hlook₂, bind, Except.bind, hidentifier, hkind₂, hl]
        rfl
    · cases hcall.starts_rule
  · simp [chooseTarget, hlook, bind, Except.bind, hidentifier]
    rfl

section Suffix

variable (hfollow : ∀ k, canStart C k = true → Rule.call.follow k = true ∨ k = .dot)

include hfollow

theorem chooseSuffix_stop (hdot : ∀ x, Yields C (.dot :: x) → ∃ y, x = .identifier :: .equal :: y)
    (h : Yields C (Token.kinds tokens)) : chooseSuffix (.finish p) tokens = .ok false := by
  obtain ⟨t, w, hlook, hk⟩ := look_first tokens p
  rw [hk] at h
  have hstart := hfollow _ h.canStart_all
  by_cases hkind : t.kind = .dot
  · rw [hkind] at h
    obtain ⟨y, rfl⟩ := hdot w h
    obtain ⟨t₂, hlook₂, hkind₂⟩ : ∃ t₂, look (.finish p) tokens 1 = .ok t₂ ∧ t₂.kind = .identifier :=
      look_kinds (by rw [hk]; rfl)
    obtain ⟨t₃, hlook₃, hkind₃⟩ : ∃ t₃, look (.finish p) tokens 2 = .ok t₃ ∧ t₃.kind = .equal :=
      look_kinds (by rw [hk]; rfl)
    simp [chooseSuffix, hlook, hlook₂, hlook₃, bind, Except.bind, hkind, hkind₂, hkind₃]
    rfl
  · have hne : t.kind ≠ .openParen ∧ t.kind ≠ .openBracket := by
      constructor
      all_goals
        intro hparen
        rw [hparen] at hstart
        rcases hstart with hstart | hstart <;> cases hstart
    simp [chooseSuffix, hlook, bind, Except.bind, hkind, hne]
    rfl

theorem chooseSuffix_again (hend : canEnd C = false) (h : Yields (suffix :: suffixes :: C) (Token.kinds tokens)) :
    chooseSuffix (.finish p) tokens = .ok true := by
  obtain ⟨t, w, hlook, hk⟩ := look_first tokens p
  rw [hk, suffix] at h
  simp only [choose, yields_either, yields_row, List.cons_append, List.nil_append, yields_token_cons] at h
  rcases h with ⟨hkind, -⟩ | ⟨hkind, hw⟩ | ⟨hkind, -⟩
  · simp [chooseSuffix, hlook, bind, Except.bind, hkind]
    rfl
  · obtain ⟨v, rfl, hv⟩ := yields_token.mp hw
    have hv' : v ≠ [] := hv.ne_nil (canEnd_cons hend)
    obtain ⟨l, v, rfl⟩ := List.exists_cons_of_ne_nil hv'
    have hl : l ≠ .equal := by
      rintro rfl
      have hcases : canStart [suffixes] .equal = true ∨ canEnd [suffixes] = true ∧ Yields C (.equal :: v) :=
        hv.canStart
      rcases hcases with hstart | ⟨-, hstart⟩
      · cases hstart
      · rcases hfollow _ hstart.canStart_all with hstart | hstart <;> cases hstart
    obtain ⟨t₂, hlook₂, hkind₂⟩ : ∃ t₂, look (.finish p) tokens 1 = .ok t₂ ∧ t₂.kind = .identifier :=
      look_kinds (by rw [hk]; rfl)
    obtain ⟨t₃, hlook₃, hkind₃⟩ : ∃ t₃, look (.finish p) tokens 2 = .ok t₃ ∧ t₃.kind = l :=
      look_kinds (by rw [hk]; rfl)
    simp [chooseSuffix, hlook, hlook₂, hlook₃, bind, Except.bind, hkind, hkind₂, hkind₃, hl]
    rfl
  · simp [chooseSuffix, hlook, bind, Except.bind, hkind]
    rfl

end Suffix

end Choice

end CompiScript
