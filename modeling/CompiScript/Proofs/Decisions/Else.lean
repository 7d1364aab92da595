import CompiScript.Proofs.Decisions.Names

namespace CompiScript

open Phrase

namespace Choice

open Ahead
variable {C : List Phrase} {p : Position} {tokens : List Token}

theorem settleElse_stuck {stack : List Ahead} {k : Kind} {ended : Bool} (hend : canEnd C = false)
    (hstep : step stack k = none) (hskip : stack.all skippable = true) (hk : canStart C k = true) :
    settleElse C ended stack k = some true := by
  unfold settleElse
  split
  · rfl
  · simp [hstep, hend, hskip, canFollow, hk]

theorem follow_else {S : List Phrase} (hS : Dangling S) (hendS : canEnd S = false) (hend : canEnd C = false)
    (hfront : ∀ k, canStart S k = true → canStart C k = true) {stack : List Ahead}
    (hstack : fitsAll (canStart S) stack = true) (h : Yields (stack.map content ++ S) (Token.kinds tokens))
    (ended : Bool) (seen : String) : follow (settleElse C) (.finish p) ended seen stack tokens = .ok true := by
  induction tokens generalizing stack ended seen with
  | nil =>
    have hrest : ∀ left : List Ahead, ¬Yields (left.map content ++ S) [] := by
      intro left hleft
      have hcan := canEnd_of_yields_nil hleft
      simp [canEnd] at hcan hendS
      grind
    rcases step_tracks hstack hS h with ⟨left, -, hleft⟩ | ⟨hstep, hskip, hyields⟩
    · exact absurd hleft (hrest left)
    · exact follow_settled rfl (settleElse_stuck hend hstep hskip (hfront _ hyields.canStart_all))
  | cons t ts ih =>
    rcases step_tracks hstack hS h with ⟨left, hstep, hleft⟩ | ⟨hstep, hskip, hyields⟩
    · cases stack with
      | nil => cases hstep
      | cons a rest =>
        have hsettle : settleElse C ended (a :: rest) t.kind = none := by
          simp [settleElse, hstep]
        rw [follow_step hsettle hstep]
        exact ih (step_fits hstack hstep) hleft _ _
    · exact follow_settled rfl (settleElse_stuck hend hstep hskip (hfront _ hyields.canStart_all))

theorem openIfs_replicate (m : Nat) (Y : List Phrase) :
    openIfs (List.replicate m (option .nearestIf elsePart) ++ Y) = m + openIfs Y := by
  induction m with
  | zero => simp
  | succ m ih =>
    rw [List.replicate_succ, List.cons_append, openIfs, ih]
    simp [nullable, isElsePart]
    omega

theorem fitsAll_elses (F : Kind → Bool) (n : Nat) :
    fitsAll F (phrase (.rule .statement) :: List.replicate n (phrase (.option .nearestIf elsePart))) = true := by
  have hpart : ∀ G : Kind → Bool, elsePart.fits G = true :=
    fun G => Phrase.fits_mono (fun _ _ => rfl) (by decide : elsePart.fits (fun _ => true) = true)
  have helses : fitsAll F (List.replicate n (phrase (.option .nearestIf elsePart))) = true := by
    induction n with
    | zero => rfl
    | succ n ih =>
      rw [List.replicate_succ, fitsAll, ih]
      simp only [Ahead.fits, Phrase.fits, hpart]
      rfl
  rw [fitsAll, helses]
  have hstatement : ∀ G : Kind → Bool, (rule .statement).fits G = true := fun G => within_iff.mpr fun _ _ => rfl
  simp only [Ahead.fits, hstatement]
  rfl

theorem follow_elses {Y : List Phrase} (hY : canStart Y .elseWord = false) (hopen : openIfs Y = 0) {n : Nat}
    (hend : canEnd (List.replicate (n + 1) (option .nearestIf elsePart) ++ Y) = false)
    (h : Yields (elsePart :: (List.replicate (n + 1) (option .nearestIf elsePart) ++ Y)) (Token.kinds tokens)) :
    follow (settleElse (List.replicate (n + 1) (option .nearestIf elsePart) ++ Y)) (.finish p) false ""
      (phrase elsePart :: List.replicate n (phrase (.option .nearestIf elsePart))) tokens = .ok true := by
  have hreplicate : List.replicate (n + 1) (option .nearestIf elsePart) ++ Y =
      List.replicate n (option .nearestIf elsePart) ++ option .nearestIf elsePart :: Y := by
    rw [List.replicate_succ', List.append_assoc]
    rfl
  obtain ⟨v, hv, hyields⟩ := yields_token.mp (yields_seq.mp h)
  obtain ⟨t, ts, rfl, ht, rfl⟩ := kinds_eq_cons hv (hyields.ne_nil (canEnd_cons hend))
  -- The `else` itself; what is left of its part stands in front of the open statements.
  have hstep : step (phrase elsePart :: List.replicate n (phrase (.option .nearestIf elsePart))) t.kind =
      some (phrase (.rule .statement) :: List.replicate n (phrase (.option .nearestIf elsePart))) := by
    rw [ht]
    rfl
  rw [follow_step (by simp [settleElse, hstep]) hstep]
  have hS : Dangling (option .nearestIf elsePart :: Y) := ⟨1, Y, rfl, hY, hopen⟩
  refine follow_else hS (by simpa [canEnd, nullable] using hend) hend ?_ (fitsAll_elses _ n) ?_ _ _
  · intro k hk
    rw [hreplicate, canStart_append, frontAll, Bool.or_eq_true, Bool.and_eq_true]
    exact .inr ⟨by simp [canEnd, nullable], hk⟩
  · rw [hreplicate] at hyields
    rw [List.map_cons, List.map_replicate]
    exact hyields

section Else

variable (hC : Dangling C) (hend : canEnd C = false)
  (h : Yields (option .nearestIf elsePart :: C) (Token.kinds tokens))

include hC

theorem yields_elsePart {w : List Kind} (h : Yields (option .nearestIf elsePart :: C) (.elseWord :: w)) :
    Yields (elsePart :: C) (.elseWord :: w) := by
  rcases yields_option.mp h with h | h
  · exact hC.swap h
  · exact h

include hend h

theorem chooseElse_eq {k : Kind} {w : List Kind} (hk : Token.kinds tokens = k :: w) :
    chooseElse (.finish p) elsePart C tokens = .ok (k = .elseWord) := by
  obtain ⟨t, hlook, rfl⟩ : ∃ t, look (.finish p) tokens 0 = .ok t ∧ t.kind = k := look_kinds (by rw [hk]; rfl)
  by_cases helse : t.kind = .elseWord
  · have htake : Yields (elsePart :: C) (Token.kinds tokens) := by
      rw [hk, helse] at h ⊢
      exact yields_elsePart hC h
    obtain ⟨m, Y, rfl, hY, hopen⟩ := hC
    simp only [chooseElse, hlook, bind, Except.bind, helse, openIfs_replicate, hopen]
    cases m with
    | zero =>
      rw [List.replicate_zero, List.nil_append] at hend ⊢
      simp [hend]
      rfl
    | succ n => exact follow_elses hY hopen hend htake
  · simp [chooseElse, hlook, bind, Except.bind, helse]
    rfl

theorem chooseElse_right : ∃ b, chooseElse (.finish p) elsePart C tokens = .ok b ∧
    Yields (if b then elsePart :: C else C) (Token.kinds tokens) := by
  obtain ⟨k, w, hk⟩ := List.exists_cons_of_ne_nil (kinds_ne_nil tokens)
  refine ⟨_, chooseElse_eq hC hend h hk, ?_⟩
  rw [hk] at h ⊢
  by_cases helse : k = .elseWord
  · subst helse
    exact yields_elsePart hC h
  · rw [if_neg (by simpa using helse)]
    rcases yields_option.mp h with h | h
    · exact h
    · exact absurd (yields_token_cons.mp (yields_seq.mp h)).1 helse

end Else

end Choice

end CompiScript
