import CompiScript.Proofs.Prefixes.Blame

namespace CompiScript

open Phrase

section Decisions

variable {ending : Ending} {tokens : List Token} {e : SyntaxError}

theorem Phrase.eq_of_isElsePart {p : Phrase} (hp : p.proper = true) (h : p.isElsePart = true) :
    p = option .nearestIf elsePart := by
  unfold isElsePart at h
  split at h
  · simp only [proper, Bool.and_eq_true, Bool.or_eq_true, decide_eq_true_eq] at hp
    rcases hp.2 with (hc | hc) | ⟨-, rfl⟩
    · cases hc
    · cases hc
    · rfl
  · cases h

theorem viable_of_openIfs {after : List Phrase} (hafter : ∀ p ∈ after, p.proper = true) {n : Nat}
    (hn : n ≤ openIfs after) {w : List Kind} (hw : Yields (List.replicate n (option .nearestIf elsePart)) w) :
    Viable after w := by
  induction after generalizing n w with
  | nil =>
    cases Nat.le_zero.mp hn
    exact ⟨[], by rw [List.append_nil]; exact hw⟩
  | cons p after ih =>
    obtain ⟨hp, hrest⟩ := List.forall_mem_cons.mp hafter
    cases n with
    | zero =>
      cases hw
      exact viable_nil hafter
    | succ n =>
      simp only [openIfs] at hn
      split at hn
      · next hnullable =>
        split at hn
        · next helse =>
          -- An open statement takes the first of the parts, and those around it take the others.
          cases eq_of_isElsePart hp helse
          obtain ⟨u, v, rfl, hu, hv⟩ := hw
          obtain ⟨x, hx⟩ := ih hrest (by omega) hv
          exact ⟨x, by rw [List.append_assoc]; exact hu.yields hx⟩
        · obtain ⟨x, hx⟩ := ih hrest (by omega) hw
          exact ⟨x, (gives_nil_iff.mpr hnullable).yields hx⟩
      · omega

variable {after : List Phrase}

theorem Choice.chooseElse_blames (hafter : ∀ p ∈ after, p.proper = true)
    (h : chooseElse ending elsePart after tokens = .error e) :
    Blames ending (option .nearestIf elsePart :: after) tokens e := by
  have hpart : ∀ w, Yields (elsePart :: after) w → Yields (option .nearestIf elsePart :: after) w :=
    fun w hw => yields_option.mpr (.inr hw)
  simp only [chooseElse, bind, Except.bind] at h
  split at h
  · next hlook =>
    cases h
    exact .of_none (look_error hlook)
  split at h
  · cases h
  split at h
  · split at h
    · exact (Ahead.follow_blames h (by decide) after hafter).mono hpart
    · cases h
  · next n hopen =>
    have hstack : ∀ a ∈ Ahead.phrase elsePart :: List.replicate n (.phrase (option .nearestIf elsePart)),
        a.content.proper = true := by
      simp only [List.forall_mem_cons, List.mem_replicate]
      refine ⟨rfl, ?_⟩
      rintro a ⟨-, rfl⟩
      rfl
    have hblames := Ahead.follow_blames h hstack [] (by simp)
    intro t ht
    obtain ⟨used, rest, htokens, hlook, v, hv⟩ := hblames t ht
    refine ⟨used, rest, htokens, hlook, Viable.mono hpart ?_⟩
    rw [List.append_nil, List.map_cons, List.map_replicate] at hv
    obtain ⟨u₁, u₂, hsplit, hu₁, hu₂⟩ := hv
    obtain ⟨x, hx⟩ := viable_of_openIfs hafter (by omega) hu₂
    refine ⟨v ++ x, ?_⟩
    rw [← List.append_assoc, hsplit, List.append_assoc]
    exact hu₁.yields hx

theorem Choice.decide_error {c : Choice} {a : Phrase}
    (hc : c = .byToken ∨ c = .targetObject ∨ c = .callSuffix)
    (h : c.decide ending a after tokens = .error e) : e.token? = none := by
  rcases hc with rfl | rfl | rfl
  · cases hlook : look ending tokens 0 with
    | error x =>
      simp only [decide, hlook, Except.map] at h
      cases h
      exact look_error hlook
    | ok t =>
      simp only [decide, hlook, Except.map] at h
      cases h
  · simp only [decide, chooseTarget, bind, Except.bind] at h
    split at h
    · next hlook =>
      cases h
      exact look_error hlook
    split at h
    · cases h
    split at h
    · next hlook =>
      cases h
      exact look_error hlook
    · cases h
  · simp only [decide, chooseSuffix, bind, Except.bind] at h
    split at h
    · next hlook =>
      cases h
      exact look_error hlook
    split at h
    · cases h
    split at h
    · cases h
    split at h
    · next hlook =>
      cases h
      exact look_error hlook
    split at h
    · cases h
    split at h
    · next hlook =>
      cases h
      exact look_error hlook
    · cases h

theorem Choice.option_blames {c : Choice} {a : Phrase} (hform : (option c a).proper = true)
    (hafter : ∀ p ∈ after, p.proper = true) (h : c.decide ending a after tokens = .error e) :
    Blames ending (option c a :: after) tokens e := by
  simp only [proper, Bool.and_eq_true, Bool.or_eq_true, decide_eq_true_eq] at hform
  rcases hform with ⟨ha, (rfl | rfl) | ⟨rfl, rfl⟩⟩
  · exact .of_none (decide_error (.inl rfl) h)
  · exact .of_none (decide_error (.inr (.inl rfl)) h)
  · exact chooseElse_blames hafter h

theorem Choice.many_error {c : Choice} {a : Phrase} (hform : (many c a).proper = true)
    (h : c.decide ending a after tokens = .error e) : e.token? = none := by
  simp only [proper, Bool.and_eq_true, Bool.or_eq_true, decide_eq_true_eq] at hform
  rcases hform with ⟨ha, rfl | rfl⟩
  · exact decide_error (.inl rfl) h
  · exact decide_error (.inr (.inr rfl)) h

theorem Choice.chooseNamed_blames {c : Choice} {b : Phrase} (hafter : ∀ p ∈ after, p.proper = true)
    (h : chooseNamed ending tokens = .error e) :
    Blames ending (either c (rule .funDecl) b :: after) tokens e := by
  simp only [chooseNamed, bind, Except.bind] at h
  split at h
  · next hlook =>
    cases h
    exact .of_none (look_error hlook)
  next t hlook =>
  split at h
  · cases h
  next hfun =>
  split at h
  · next hlook₂ =>
    cases h
    exact .of_none (look_error hlook₂)
  next t₂ hlook₂ =>
  split at h
  · cases h
  · cases h
  cases h
  rw [Decidable.not_not] at hfun
  cases tokens with
  | nil =>
    rw [look_nil_kind hlook] at hfun
    cases hfun
  | cons s tokens =>
    cases hlook
    intro t' ht'
    cases noAlternative_token ht'
    refine ⟨[t], tokens, rfl, hlook₂, Viable.mono (fun w => yields_either.mpr ∘ .inl) ?_⟩
    obtain ⟨v, hv⟩ := exists_yields (proper_cons (p := rule .function) rfl hafter)
    refine ⟨v, yields_rule.mpr (yields_seq.mpr (yields_token.mpr ⟨v, ?_, hv⟩))⟩
    rw [List.map_singleton, hfun]
    rfl

theorem Choice.either_blames {c : Choice} {a b : Phrase} (hform : (either c a b).proper = true)
    (hafter : ∀ p ∈ after, p.proper = true) (h : c.decide ending a after tokens = .error e) :
    Blames ending (either c a b :: after) tokens e := by
  simp only [proper, Bool.and_eq_true, Bool.or_eq_true, decide_eq_true_eq] at hform
  rcases hform with ⟨⟨ha, hb⟩, ((rfl | ⟨rfl, rfl⟩) | ⟨rfl, rfl⟩) | ⟨rfl, hwhole⟩⟩
  · exact .of_none (decide_error (.inl rfl) h)
  · exact chooseNamed_blames hafter h
  · simp only [decide, chooseWhole, bind, Except.bind] at h
    split at h
    · next hlook =>
      cases h
      exact .of_none (look_error hlook)
    split at h
    · refine (Ahead.follow_blames h (by decide) after hafter).mono fun w hw => ?_
      exact yields_either.mpr (.inr hw)
    · cases h
  · simp only [decide, chooseAssignment, bind, Except.bind] at h
    split at h
    · next hlook =>
      cases h
      exact .of_none (look_error hlook)
    split at h
    · cases h
    · refine (Ahead.follow_blames h (by decide) after hafter).mono fun w hw => ?_
      rw [hwhole]
      exact yields_rule.mp hw

end Decisions

end CompiScript
