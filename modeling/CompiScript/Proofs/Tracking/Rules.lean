import CompiScript.Proofs.Tracking.Phrases

namespace CompiScript

open Phrase

namespace Ahead

variable {k : Kind}

section Rules

variable {n : Nat} {D : List Phrase} {w : List Kind}

theorem readPhrase_tracks_some (hrules : RulesTrack n) {p : Phrase} (hshallow : p.shallow n = true)
    (hnullable : p.nullable = false) (hfits : p.fits (canStart D) = true) (hD : Dangling D)
    (h : Yields (p :: D) (k :: w)) :
    ∃ left, readPhrase (readRule n) p k = some left ∧ Yields (left.map content ++ D) w := by
  rcases readPhrase_tracks hrules hshallow hfits hD h with hleft | ⟨-, hnullable', -⟩
  · exact hleft
  · rw [hnullable] at hnullable'
    cases hnullable'

theorem declaration_tracks (hrules : RulesTrack n) (hn : 13 < n) (hk : k ≠ .funWord) (hD : Dangling D)
    (h : Yields (.rule .declaration :: D) (k :: w)) :
    ∃ left, readPhrase (readRule n) Rule.declaration.phrase k = some left ∧
      Yields (left.map content ++ D) w := by
  have hstarts : ∀ k, Rule.funDecl.starts k = true → k = .funWord := by
    intro k
    cases k <;> first | exact fun _ => rfl | exact nofun
  have hfun : readRule n .funDecl k = none := by
    cases hread : readRule n .funDecl k with
    | none => rfl
    | some left => exact absurd (hstarts k (readRule_starts hread)) hk
  let others : Phrase := choose [.rule .classDecl, .rule .varDecl, .rule .statement]
  have hothers : Yields (others :: D) (k :: w) := by
    rw [yields_rule, Rule.phrase] at h
    simp only [others, choose, yields_either] at h ⊢
    rcases h with h | h | h | h
    · exact .inl h
    · exact absurd (hstarts k h.starts_rule) hk
    · exact .inr (.inl h)
    · exact .inr (.inr h)
  have hshallow : others.shallow n = true := shallow_mono hn rfl
  have hfits : others.fits (canStart D) = true :=
    Phrase.fits_mono (fun _ _ => rfl) (by decide +kernel : others.fits (fun _ => true) = true)
  obtain ⟨left, hread, hleft⟩ := readPhrase_tracks_some hrules hshallow rfl hfits hD hothers
  refine ⟨left, ?_, hleft⟩
  simpa [others, Rule.phrase, choose, readPhrase, hfun] using hread

theorem assignment_tracks (hrules : RulesTrack n) (hn : 9 < n)
    (hfollow : ∀ k, canStart D k = true → Rule.assignment.follow k = true) (hD : Dangling D)
    (h : Yields (.rule .assignment :: D) (k :: w)) :
    ∃ left, readRule (n + 1) .assignment k = some left ∧ Yields (left.map content ++ D) w := by
  have hprimary : Yields (.rule .primary :: operand.content :: D) (k :: w) →
      ∃ left, readPhrase (readRule n) Rule.primary.phrase k = some left ∧
        Yields (left.map content ++ operand.content :: D) w := by
    intro hp
    refine readPhrase_tracks_some hrules (shallow_mono (m := 1) (by omega) rfl) rfl ?_
      (dangling_place (by simp) hD hfollow) (yields_rule.mp hp)
    exact Phrase.fits_mono (fun _ _ => rfl) (Rule.fits_phrase (r := .primary) rfl)
  rcases yields_assignment.mp h with ⟨v, hv, hw⟩ | h | h | ⟨l, v, hl, hv, hw⟩
  · cases hv
    exact ⟨[target], rfl, yields_target_cons.mpr (.inl ⟨rfl, hw⟩)⟩
  · obtain ⟨left, hread, hleft⟩ := hprimary h
    by_cases hidentifier : k = .identifier
    · subst hidentifier
      cases hread
      exact ⟨[target], rfl, yields_either.mpr (.inr hleft)⟩
    · have hfun : k ≠ .funWord := by
        rintro rfl
        cases h.starts_rule
      refine ⟨left ++ [operand], ?_, ?_⟩
      · rw [readRule_assignment hidentifier hfun, hread]
      · rw [List.map_append, List.append_assoc]
        exact hleft
  · have hk : k = .funWord := by
      have hstarts := h.starts_rule
      revert hstarts
      cases k <;> first | exact fun _ => rfl | exact nofun
    subst hk
    have hfits : Rule.funAnon.phrase.fits (canStart (function.content :: D)) = true :=
      Phrase.fits_mono (fun _ _ => rfl) (Rule.fits_phrase (r := .funAnon) rfl)
    obtain ⟨left, hread, hleft⟩ := readPhrase_tracks_some hrules (shallow_mono (m := 0) (by omega) rfl) rfl
      hfits (dangling_place (by simp) hD hfollow) (yields_rule.mp h)
    refine ⟨left ++ [function], ?_, ?_⟩
    · simp [readRule, hread]
    · rw [List.map_append, List.append_assoc]
      exact hleft
  · cases hv
    have hlogic : Yields (.rule .logicOr :: D) (k :: w) :=
      yields_logicOr.mpr (.inl ⟨k, w, hl, rfl, hw⟩)
    have hnot : k ≠ .identifier ∧ k ≠ .funWord ∧ Rule.primary.starts k = false := by
      simp only [List.mem_cons, List.not_mem_nil, or_false] at hl
      rcases hl with rfl | rfl
      · exact ⟨nofun, nofun, rfl⟩
      · exact ⟨nofun, nofun, rfl⟩
    have hnone : readPhrase (readRule n) Rule.primary.phrase k = none := by
      cases hread : readPhrase (readRule n) Rule.primary.phrase k with
      | none => rfl
      | some left =>
        have hstarts := readPhrase_starts (fun _ _ => readRule_starts) hread
        rw [Rule.starts_phrase, hnot.2.2] at hstarts
        cases hstarts
    rw [readRule_assignment hnot.1 hnot.2.1, hnone]
    refine readPhrase_tracks_some hrules (shallow_mono (m := 9) (by omega) rfl) rfl ?_ hD (yields_rule.mp hlogic)
    exact Phrase.fits_mono hfollow (Rule.fits_phrase (r := .logicOr) rfl)

theorem readRule_tracks (n : Nat) : RulesTrack n := by
  induction n with
  | zero =>
    intro r D k w hlevel
    omega
  | succ n ih =>
    intro r D k w hlevel hfollow hD h
    cases hr : r.subtle with
    | false =>
      rw [readRule_of_ne]
      · refine readPhrase_tracks_some ih (shallow_mono (by omega) r.shallow_phrase) r.nullable_phrase ?_ hD
          (yields_rule.mp h)
        exact Phrase.fits_mono hfollow (Rule.fits_phrase hr)
      · exact .inl fun hr' => by rw [hr'] at hr; cases hr
      · exact fun hr' => by rw [hr'] at hr; cases hr
    | true =>
      have hcases : r = .declaration ∨ r = .expression ∨ r = .assignment := by
        simpa [Rule.subtle, or_assoc] using hr
      rcases hcases with rfl | rfl | rfl
      · by_cases hk : k = .funWord
        · subst hk
          exact ⟨[declared], rfl, yields_declared h⟩
        · rw [readRule_of_ne (r := .declaration) (.inr hk) (by decide)]
          exact declaration_tracks ih (Nat.lt_of_succ_lt_succ hlevel) hk hD h
      · have hlevel' : Rule.assignment.level < n := Nat.lt_of_succ_lt_succ hlevel
        obtain ⟨left, hread, hleft⟩ := ih _ _ _ _ hlevel' hfollow hD (yields_expression.mp h)
        refine ⟨left, ?_, hleft⟩
        have hexpression : readRule (n + 1) .expression k = readPhrase (readRule n) Rule.expression.phrase k := rfl
        simp [hexpression, Rule.phrase, readPhrase, hread]
      · exact assignment_tracks ih (Nat.lt_of_succ_lt_succ hlevel) hfollow hD h

end Rules

end Ahead

end CompiScript
