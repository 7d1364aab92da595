import CompiScript.Proofs.Tracking.Rules

namespace CompiScript

open Phrase

namespace Ahead

variable {k : Kind}

section Stacks

variable {D : List Phrase} {w : List Kind}

theorem dangling_stack {stack : List Ahead} (hstack : fitsAll (canStart D) stack = true) (hD : Dangling D) :
    Dangling (stack.map content ++ D) := by
  induction stack with
  | nil => exact hD
  | cons a rest ih =>
    simp only [fitsAll, ← canStart_append, Bool.and_eq_true] at hstack
    exact (ih hstack.2).cons hstack.1.2

theorem readOptions_tracks {qs : List Phrase} (hfits : fitsAll (canStart D) (qs.map phrase) = true)
    (hD : Dangling D) (h : Yields (qs ++ D) (k :: w)) :
    (∃ left, readOptions qs k = some left ∧ Yields (left.map content ++ D) w) ∨
      readOptions qs k = none ∧ Yields D (k :: w) := by
  have hmap : ∀ qs : List Phrase, (qs.map phrase).map content = qs := by
    intro qs
    rw [List.map_map]
    exact List.map_id qs
  induction qs with
  | nil => exact .inr ⟨rfl, h⟩
  | cons q qs ih =>
    simp only [List.map_cons, fitsAll, hmap, ← canStart_append, Bool.and_eq_true] at hfits
    have hD' : Dangling (qs ++ D) := hmap qs ▸ dangling_stack hfits.2 hD
    rcases readPhrase_tracks (readRule_tracks _) q.shallow_depth hfits.1.1 hD' h with
      ⟨left, hread, hleft⟩ | ⟨hread, -, hskip⟩
    · refine .inl ⟨left ++ qs.map phrase, by simp [readOptions, hread], ?_⟩
      rw [List.map_append, hmap, List.append_assoc]
      exact hleft
    · simpa [readOptions, hread] using ih hfits.2 hskip

theorem trailing_ne (k : Kind) (h : frontAll operators Rule.assignment.follow k = true) :
    k ≠ .dot ∧ k ≠ .openParen ∧ k ≠ .openBracket ∧ k ≠ .equal := by
  revert h
  cases k <;> decide

section Places

variable (hfollow : ∀ k, canStart D k = true → Rule.assignment.follow k = true) (hD : Dangling D)

include hfollow hD

theorem operators_track (h : Yields (operators ++ D) (k :: w)) :
    (k ≠ .dot ∧ k ≠ .openParen ∧ k ≠ .openBracket ∧ k ≠ .equal) ∧
      ((∃ left, readOptions operators k = some left ∧ Yields (left.map content ++ D) w) ∨
        readOptions operators k = none ∧ Yields D (k :: w)) := by
  have hstart := h.canStart_all
  rw [canStart_append] at hstart
  have hfits : fitsAll Rule.assignment.follow (operators.map phrase) = true := by
    decide +kernel
  exact ⟨trailing_ne k (frontAll_mono hfollow k hstart), readOptions_tracks (fitsAll_mono hfollow hfits) hD h⟩

theorem readSuffix_tracks (h : Yields (operand.content :: D) (k :: w)) :
    k ≠ .equal ∧ Tracks operand.content (readSuffix k) D k w := by
  rcases yields_operand_cons.mp h with ⟨rfl, hw⟩ | ⟨rfl, hw⟩ | ⟨rfl, hw⟩ | hw
  · exact ⟨nofun, .inl ⟨_, rfl, hw⟩⟩
  · exact ⟨nofun, .inl ⟨_, rfl, hw⟩⟩
  · exact ⟨nofun, .inl ⟨_, rfl, hw⟩⟩
  · obtain ⟨⟨hdot, hparen, hbracket, hequal⟩, htracks⟩ := operators_track hfollow hD hw
    have hread : readSuffix k = readOptions operators k := by
      simp [readSuffix]
    rw [hread]
    exact ⟨hequal, htracks.imp_right fun hnone => ⟨hnone.1, rfl, hnone.2⟩⟩

theorem function_tracks (h : Yields (function.content :: D) (k :: w)) :
    Tracks function.content (function.read k) D k w := by
  rcases yields_function_cons.mp h with ⟨rfl, hw⟩ | hw
  · exact .inl ⟨_, rfl, hw⟩
  · obtain ⟨⟨hdot, -⟩, htracks⟩ := operators_track hfollow hD hw
    have hread : function.read k = readOptions operators k := by
      simp [read]
    rw [hread]
    exact htracks.imp_right fun hnone => ⟨hnone.1, rfl, hnone.2⟩

theorem target_tracks (h : Yields (target.content :: D) (k :: w)) :
    Tracks target.content (target.read k) D k w := by
  rcases yields_target_cons.mp h with ⟨rfl, hw⟩ | hw
  · exact .inl ⟨_, rfl, hw⟩
  · obtain ⟨hequal, htracks⟩ := readSuffix_tracks hfollow hD hw
    have hread : target.read k = readSuffix k := by
      simp [read]
    rw [hread]
    exact htracks

end Places

theorem declared_tracks (hD : Dangling D) (h : Yields (declared.content :: D) (k :: w)) :
    Tracks declared.content (declared.read k) D k w := by
  rcases yields_declared_cons.mp h with ⟨rfl, hw⟩ | hw
  · exact .inl ⟨_, rfl, hw⟩
  · have hparen : k ≠ .openParen := by
      rintro rfl
      cases hw.starts_rule
    have hread : declared.read k = readRule Rule.depth .function k := by
      simp [read, readPhrase]
    rw [hread]
    exact .inl (readRule_tracks _ _ _ _ _ (by decide) (fun _ _ => rfl) hD hw)

theorem read_tracks {a : Ahead} (ha : a.fits (canStart D) = true) (hD : Dangling D)
    (h : Yields (a.content :: D) (k :: w)) : Tracks a.content (a.read k) D k w := by
  cases a with
  | phrase p => exact readPhrase_tracks (readRule_tracks _) p.shallow_depth ha hD h
  | target => exact target_tracks (within_iff.mp ha) hD h
  | operand => exact (readSuffix_tracks (within_iff.mp ha) hD h).2
  | function => exact function_tracks (within_iff.mp ha) hD h
  | declared => exact declared_tracks hD h

theorem step_tracks {stack : List Ahead} {S : List Phrase} (hstack : fitsAll (canStart S) stack = true)
    (hS : Dangling S) (h : Yields (stack.map content ++ S) (k :: w)) :
    (∃ left, step stack k = some left ∧ Yields (left.map content ++ S) w) ∨
      step stack k = none ∧ stack.all skippable = true ∧ Yields S (k :: w) := by
  induction stack with
  | nil => exact .inr ⟨rfl, rfl, h⟩
  | cons a rest ih =>
    simp only [fitsAll, ← canStart_append, Bool.and_eq_true] at hstack
    rcases read_tracks hstack.1.1 (dangling_stack hstack.2 hS) h with
      ⟨left, hread, hleft⟩ | ⟨hread, hnullable, hskip⟩
    · refine .inl ⟨left ++ rest, by simp [step, hread], ?_⟩
      rw [List.map_append, List.append_assoc]
      exact hleft
    · rw [nullable_content] at hnullable
      simpa [step, hread, hnullable] using ih hstack.2 hskip

theorem step_append {stack left more : List Ahead} (h : step stack k = some left) :
    step (stack ++ more) k = some (left ++ more) := by
  induction stack with
  | nil => cases h
  | cons a rest ih =>
    simp only [List.cons_append, step] at h ⊢
    split at h
    · next inner hread =>
      cases h
      simp
    · split at h
      · next hskip => simp [hskip, ih h]
      · cases h

end Stacks

end Ahead

end CompiScript
