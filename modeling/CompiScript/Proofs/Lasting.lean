import CompiScript.Proofs.Decisions.Else

namespace CompiScript

open Phrase

structure Continues (C : List Phrase) (more : List Token) : Prop where
  yields : ∀ ts : List Token, Yields C (Token.kinds ts) → Yields C (Token.kinds (ts ++ more))
  ne_else : ∀ w, Token.kinds more ≠ .elseWord :: w
  unended : canEnd C = false

variable {C : List Phrase} {p p' : Position} {tokens more : List Token} {b : Bool}

theorem kinds_append (used rest : List Token) :
    Token.kinds (used ++ rest) = used.map (·.kind) ++ Token.kinds rest := by
  simp [Token.kinds]

theorem Continues.cons (h : Continues C more) (a : Phrase) : Continues (a :: C) more := by
  refine ⟨?_, h.ne_else, canEnd_cons h.unended⟩
  rintro ts ⟨u, v, huv, hu, hv⟩
  obtain ⟨used, rest, rfl, rfl, rfl⟩ := kinds_eq_append huv (hv.ne_nil h.unended)
  rw [List.append_assoc, kinds_append]
  exact hu.yields (h.yields rest hv)

namespace Ahead

variable {settle : Bool → List Ahead → Kind → Option Bool} {ended : Bool} {seen : String} {stack left : List Ahead}

theorem follow_append (p' : Position) (more : List Token) (h : follow settle (.finish p) ended seen stack tokens = .ok b) :
    follow settle (.finish p') ended seen stack (tokens ++ more) = .ok b ∨
      ∃ ended' left, run stack (tokens.map (·.kind)) = some left ∧ settle ended' left .eof = some b := by
  induction tokens generalizing ended seen stack with
  | nil =>
    refine .inr ⟨ended, stack, rfl, ?_⟩
    have heof : (Token.eof p).kind = .eof := rfl
    simp only [follow, Ending.token, bind, Except.bind, heof] at h
    split at h
    · next answer hanswer =>
      cases h
      exact hanswer
    · cases h
  | cons t ts ih =>
    rw [List.cons_append]
    simp only [follow] at h ⊢
    split at h
    · next answer hanswer => exact .inl h
    · split at h
      · next left hstep =>
        rcases ih h with h' | ⟨ended', left', hrun, hsettle⟩
        · exact .inl h'
        · refine .inr ⟨ended', left', ?_, hsettle⟩
          simp [run, hstep, hrun]
      · cases h

theorem run_tracks {S : List Phrase} {ks w : List Kind} (hrun : run stack ks = some left)
    (hstack : fitsAll (canStart S) stack = true) (hS : Dangling S) (h : Yields (stack.map content ++ S) (ks ++ w)) :
    Yields (left.map content ++ S) w := by
  induction ks generalizing stack with
  | nil =>
    cases hrun
    exact h
  | cons k ks ih =>
    rw [List.cons_append] at h
    rcases step_tracks hstack hS h with ⟨next, hstep, hnext⟩ | ⟨hstep, -, -⟩
    · simp only [run, hstep] at hrun
      exact ih hrun (step_fits hstack hstep) hnext
    · simp [run, hstep] at hrun

end Ahead

namespace Choice

open Ahead

theorem eq_place_of_settleAssignment {ended : Bool} {stack : List Ahead} {k : Kind}
    (h : settleAssignment ended stack k = some b) : ∃ a ∈ [target, operand, function], stack = [a] := by
  match stack with
  | [] => cases h
  | [.phrase _] => cases h
  | [.declared] => cases h
  | [.target] => exact ⟨_, by simp, rfl⟩
  | [.operand] => exact ⟨_, by simp, rfl⟩
  | [.function] => exact ⟨_, by simp, rfl⟩
  | a :: _ :: _ => cases a <;> cases h

theorem chooseAssignment_append (hfollow : ∀ k, canStart C k = true → Rule.assignment.follow k = true)
    (hC : Dangling C) (h : Yields (rule .assignment :: C) (Token.kinds tokens))
    (hb : chooseAssignment (.finish p) tokens = .ok b) : chooseAssignment (.finish p') (tokens ++ more) = .ok b := by
  cases tokens with
  | nil => cases h.starts_rule
  | cons t ts =>
    have hlook : ∀ q us, look (.finish q) (t :: us) 0 = .ok t := fun _ _ => rfl
    simp only [List.cons_append, chooseAssignment, hlook, bind, Except.bind] at hb ⊢
    split at hb
    · next hsign => rwa [if_pos hsign]
    · next hsign =>
      rw [if_neg hsign]
      rcases follow_append p' more hb with hb' | ⟨ended, left, hrun, hsettle⟩
      · exact hb'
      · have hfits : fitsAll (canStart C) [phrase (.rule .assignment)] = true := fitsAll_mono hfollow (by decide)
        obtain ⟨a, ha, rfl⟩ := eq_place_of_settleAssignment hsettle
        have hrest : Yields ([a.content] ++ C) [.eof] := run_tracks hrun hfits hC h
        have hstart := hrest.canStart_all
        rw [canStart_append] at hstart
        have hends : ([target, operand, function].all fun a => !frontAll [a.content] Rule.assignment.follow .eof) =
            true := by
          decide
        have hnot := List.all_eq_true.mp hends a ha
        rw [frontAll_mono hfollow _ hstart] at hnot
        cases hnot

theorem chooseElse_append (hC : Dangling C) (hmore : Continues C more)
    (h : Yields (option .nearestIf elsePart :: C) (Token.kinds tokens))
    (hb : chooseElse (.finish p) elsePart C tokens = .ok b) :
    chooseElse (.finish p') elsePart C (tokens ++ more) = .ok b := by
  have hlonger := (hmore.cons _).yields tokens h
  cases tokens with
  | nil =>
    obtain ⟨k, w, hk⟩ := List.exists_cons_of_ne_nil (kinds_ne_nil more)
    have helse : k ≠ .elseWord := fun helse => hmore.ne_else w (helse ▸ hk)
    rw [chooseElse_eq hC hmore.unended h rfl] at hb
    rw [chooseElse_eq hC hmore.unended hlonger hk, ← hb]
    simp [helse]
  | cons t ts =>
    rw [chooseElse_eq hC hmore.unended h rfl] at hb
    rw [chooseElse_eq hC hmore.unended hlonger rfl, ← hb]

end Choice

end CompiScript
