import CompiScript.Proofs.Foresight.Items

namespace CompiScript

open Phrase
open Ahead

namespace Ahead

/-- What has been read off a phrase is right: whatever completes what is left completes the phrase. -/
def Completes (p : Phrase) (k : Kind) (left : List Ahead) : Prop :=
  ∀ ps w, Yields (left.map content ++ ps) w → Yields (p :: ps) (k :: w)

theorem readPhrase_completes {readRule : Rule → Kind → Option (List Ahead)} {k : Kind}
    (hrule : ∀ r left, readRule r k = some left → Completes (.rule r) k left) {p : Phrase}
    {left : List Ahead} (h : readPhrase readRule p k = some left) : Completes p k left := by
  induction p generalizing left with
  | nothing => cases h
  | token t =>
    simp only [readPhrase, Option.ite_none_right_eq_some, Option.some.injEq] at h
    obtain ⟨rfl, rfl⟩ := h
    exact fun ps w hw => yields_token.mpr ⟨w, rfl, hw⟩
  | oneOf ts =>
    simp only [readPhrase, Option.ite_none_right_eq_some, Option.some.injEq, List.contains_iff_mem] at h
    obtain ⟨hk, rfl⟩ := h
    exact fun ps w hw => yields_oneOf.mpr ⟨k, w, hk, rfl, hw⟩
  | rule r => exact hrule r left h
  | seq a b iha ihb =>
    simp only [readPhrase] at h
    split at h
    · next left' ha =>
      cases h
      intro ps w hw
      rw [List.map_append, List.append_assoc] at hw
      exact yields_seq.mpr (iha ha _ _ hw)
    · split at h
      · next hnullable =>
        intro ps w hw
        exact yields_seq.mpr ((gives_nil_iff.mpr hnullable).yields (ihb h _ _ hw))
      · cases h
  | option c a ih => exact fun ps w hw => yields_option.mpr (.inr (ih h ps w hw))
  | many c a ih =>
    obtain ⟨left', ha, rfl⟩ := Option.map_eq_some_iff.mp h
    intro ps w hw
    rw [List.map_append, List.append_assoc] at hw
    exact yields_many.mpr (.inr (ih ha _ _ hw))
  | either c a b iha ihb =>
    simp only [readPhrase] at h
    split at h
    · next left' ha =>
      cases h
      exact fun ps w hw => yields_either.mpr (.inl (iha ha ps w hw))
    · exact fun ps w hw => yields_either.mpr (.inr (ihb h ps w hw))

theorem readRule_of_ne {n : Nat} {r : Rule} {k : Kind} (hdeclaration : r ≠ .declaration ∨ k ≠ .funWord)
    (hassignment : r ≠ .assignment) : readRule (n + 1) r k = readPhrase (readRule n) r.phrase k := by
  cases r with
  | assignment => exact absurd rfl hassignment
  | declaration => cases k <;> first | rfl | simp at hdeclaration
  | _ => rfl

theorem readRule_assignment {n : Nat} {k : Kind} (hidentifier : k ≠ .identifier) (hfun : k ≠ .funWord) :
    readRule (n + 1) .assignment k =
      match readPhrase (readRule n) Rule.primary.phrase k with
      | some left => some (left ++ [operand])
      | none => readPhrase (readRule n) Rule.logicOr.phrase k := by
  cases k <;> first | rfl | contradiction

theorem readRule_cases {n : Nat} {r : Rule} {k : Kind} {left : List Ahead}
    (h : readRule (n + 1) r k = some left) :
    (r = .declaration ∧ k = .funWord ∧ left = [declared]) ∨
    (r = .assignment ∧ k = .identifier ∧ left = [target]) ∨
    (r = .assignment ∧ ∃ inner, readPhrase (readRule n) Rule.funAnon.phrase k = some inner ∧
      left = inner ++ [function]) ∨
    (r = .assignment ∧ ∃ inner, readPhrase (readRule n) Rule.primary.phrase k = some inner ∧
      left = inner ++ [operand]) ∨
    (r = .assignment ∧ readPhrase (readRule n) Rule.logicOr.phrase k = some left) ∨
    (r ≠ .assignment ∧ readPhrase (readRule n) r.phrase k = some left) := by
  by_cases hassignment : r = .assignment
  · subst hassignment
    by_cases hidentifier : k = .identifier
    · subst hidentifier
      cases h
      exact .inr (.inl ⟨rfl, rfl, rfl⟩)
    by_cases hfun : k = .funWord
    · subst hfun
      obtain ⟨inner, hinner, rfl⟩ := Option.map_eq_some_iff.mp h
      exact .inr (.inr (.inl ⟨rfl, inner, hinner, rfl⟩))
    rw [readRule_assignment hidentifier hfun] at h
    split at h
    · next inner hinner =>
      cases h
      exact .inr (.inr (.inr (.inl ⟨rfl, inner, hinner, rfl⟩)))
    · exact .inr (.inr (.inr (.inr (.inl ⟨rfl, h⟩))))
  by_cases hdeclared : r = .declaration ∧ k = .funWord
  · obtain ⟨rfl, rfl⟩ := hdeclared
    cases h
    exact .inl ⟨rfl, rfl, rfl⟩
  rw [readRule_of_ne (Decidable.not_and_iff_or_not.mp hdeclared) hassignment] at h
  exact .inr (.inr (.inr (.inr (.inr ⟨hassignment, h⟩))))

theorem Completes.ofRule {r : Rule} {k : Kind} {left : List Ahead} (h : Completes r.phrase k left) :
    Completes (.rule r) k left :=
  fun ps w hw => yields_rule.mpr (h ps w hw)

theorem declared_completes : Completes (.rule .declaration) .funWord [declared] := by
  intro ps w hw
  rw [yields_rule, Rule.phrase]
  simp only [choose, yields_either]
  rcases yields_either.mp hw with hfunction | hexpression
  · refine .inr (.inl (yields_rule.mpr ?_))
    exact yields_seq.mpr (yields_token.mpr ⟨w, rfl, hfunction⟩)
  · refine .inr (.inr (.inr (yields_rule.mpr (yields_either.mpr (.inl (yields_rule.mpr ?_))))))
    refine yields_seq.mpr (yields_expression.mpr (yields_assignment.mpr (.inr (.inr (.inl ?_)))))
    refine yields_rule.mpr (yields_row.mpr (yields_token.mpr ⟨w, rfl, ?_⟩))
    have hrest := yields_row.mp hexpression
    exact hrest

theorem gives_identifier : Gives (.rule .primary) [.identifier] := by
  refine .rule ?_
  simp only [Rule.phrase, choose]
  exact .right (.right (.right (.right (.right (.right (.left (.token _)))))))

theorem target_completes : Completes (.rule .assignment) .identifier [target] := by
  intro ps w hw
  rcases yields_either.mp hw with hassigned | hoperand
  · obtain ⟨v, rfl, hv⟩ := yields_token.mp (yields_row.mp hassigned)
    exact yields_assignment.mpr (.inl ⟨v, rfl, hv⟩)
  · exact yields_assignment.mpr (.inr (.inl (gives_identifier.yields hoperand)))

theorem readRule_completes {n : Nat} {r : Rule} {k : Kind} {left : List Ahead}
    (h : readRule n r k = some left) : Completes (.rule r) k left := by
  induction n generalizing r k left with
  | zero => cases h
  | succ n ih =>
    have hphrase : ∀ {r : Rule} {k : Kind} {left : List Ahead},
        readPhrase (readRule n) r.phrase k = some left → Completes (.rule r) k left :=
      fun h => (readPhrase_completes (fun _ _ => ih) h).ofRule
    rcases readRule_cases h with ⟨rfl, rfl, rfl⟩ | ⟨rfl, rfl, rfl⟩ | ⟨rfl, inner, hinner, rfl⟩ |
      ⟨rfl, inner, hinner, rfl⟩ | ⟨rfl, hleft⟩ | ⟨-, hleft⟩
    · exact declared_completes
    · exact target_completes
    · intro ps w hw
      rw [List.map_append, List.append_assoc] at hw
      exact yields_assignment.mpr (.inr (.inr (.inl (hphrase hinner _ _ hw))))
    · intro ps w hw
      rw [List.map_append, List.append_assoc] at hw
      exact yields_assignment.mpr (.inr (.inl (hphrase hinner _ _ hw)))
    · exact fun ps w hw => yields_rule.mpr (yields_either.mpr (.inr (hphrase hleft ps w hw)))
    · exact hphrase hleft

theorem readOptions_completes {qs : List Phrase} {k : Kind} {left : List Ahead}
    (h : readOptions qs k = some left) (hqs : canEnd qs = true) {ps : List Phrase} {w : List Kind}
    (hw : Yields (left.map content ++ ps) w) : Yields (qs ++ ps) (k :: w) := by
  induction qs generalizing left with
  | nil => cases h
  | cons q qs ih =>
    simp only [canEnd, List.all_cons, Bool.and_eq_true] at hqs
    simp only [readOptions] at h
    split at h
    · next left' hq =>
      cases h
      rw [List.map_append, List.append_assoc, List.map_map] at hw
      have hmap : qs.map (content ∘ phrase) = qs := List.map_id qs
      rw [hmap] at hw
      exact readPhrase_completes (fun _ _ => readRule_completes) hq _ _ hw
    · exact (gives_nil_iff.mpr hqs.1).yields (ih h hqs.2 hw)

theorem readSuffix_completes {k : Kind} {left : List Ahead} (h : readSuffix k = some left) :
    Completes operand.content k left := by
  intro ps w hw
  rw [yields_operand_cons]
  unfold readSuffix at h
  split at h
  · cases h
    exact .inl ⟨rfl, hw⟩
  · cases h
    exact .inr (.inl ⟨rfl, hw⟩)
  · cases h
    exact .inr (.inr (.inl ⟨rfl, hw⟩))
  · exact .inr (.inr (.inr (readOptions_completes h rfl hw)))

theorem read_completes {a : Ahead} {k : Kind} {left : List Ahead} (h : a.read k = some left) :
    Completes a.content k left := by
  unfold read at h
  split at h
  · exact readPhrase_completes (fun _ _ => readRule_completes) h
  · cases h
    exact fun ps w hw => yields_target_cons.mpr (.inl ⟨rfl, hw⟩)
  · exact fun ps w hw => yields_target_cons.mpr (.inr (readSuffix_completes h ps w hw))
  · exact readSuffix_completes h
  · cases h
    exact fun ps w hw => yields_function_cons.mpr (.inl ⟨rfl, hw⟩)
  · exact fun ps w hw => yields_function_cons.mpr (.inr (readOptions_completes h rfl hw))
  · cases h
    exact fun ps w hw => yields_declared_cons.mpr (.inl ⟨rfl, hw⟩)
  · intro ps w hw
    exact yields_declared_cons.mpr (.inr (readPhrase_completes (fun _ _ => readRule_completes) h ps w hw))

theorem nullable_content (a : Ahead) : a.content.nullable = a.skippable := by
  cases a <;> rfl

theorem step_completes {stack left : List Ahead} {k : Kind} (h : step stack k = some left)
    {ps : List Phrase} {w : List Kind} (hw : Yields (left.map content ++ ps) w) :
    Yields (stack.map content ++ ps) (k :: w) := by
  induction stack with
  | nil => cases h
  | cons a rest ih =>
    simp only [step] at h
    split at h
    · next left' ha =>
      cases h
      rw [List.map_append, List.append_assoc] at hw
      exact read_completes ha _ _ hw
    · split at h
      · next hskip =>
        rw [← nullable_content] at hskip
        exact (gives_nil_iff.mpr hskip).yields (ih h)
      · cases h

def run : List Ahead → List Kind → Option (List Ahead)
  | stack, [] => some stack
  | stack, k :: ks => (step stack k).bind fun left => run left ks

theorem run_completes {stack left : List Ahead} {ks : List Kind} (h : run stack ks = some left)
    {ps : List Phrase} {w : List Kind} (hw : Yields (left.map content ++ ps) w) :
    Yields (stack.map content ++ ps) (ks ++ w) := by
  induction ks generalizing stack with
  | nil =>
    cases h
    exact hw
  | cons k ks ih =>
    obtain ⟨next, hstep, hrun⟩ := Option.bind_eq_some_iff.mp h
    exact step_completes hstep (ih hrun)

end Ahead

end CompiScript
