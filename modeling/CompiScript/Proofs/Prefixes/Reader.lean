import CompiScript.Proofs.Prefixes.Choices

namespace CompiScript

open Phrase

section Reader

variable {ending : Ending} {e : SyntaxError}

theorem Taken.exists_used {accepts : Kind → Bool} {tokens rest : List Token} {x : Lexeme}
    (h : Taken ending accepts tokens x rest) (heof : accepts .eof = false) :
    ∃ t, accepts t.kind = true ∧ tokens = t :: rest := by
  cases h with
  | step ha hl => exact ⟨_, ha, rfl⟩
  | finish ha ht =>
    rw [heof] at ha
    cases ha

theorem Reads.exists_gives {form : Phrase} {here outer : List Phrase} {tokens rest : List Token}
    {trees : List Tree} (h : Reads ending form here outer tokens trees rest)
    (hend : form.form.hasEnd = false) :
    ∃ used, tokens = used ++ rest ∧ Gives form (used.map (·.kind)) := by
  induction h with
  | nothing => exact ⟨[], rfl, .nothing⟩
  | @token k here outer tokens x rest h =>
    obtain ⟨t, ht, rfl⟩ := h.exists_used (beq_eq_false_iff_ne.mpr (Ne.symm (of_decide_eq_false hend)))
    rw [beq_iff_eq] at ht
    refine ⟨[t], rfl, ?_⟩
    rw [List.map_singleton, ht]
    exact .token k
  | oneOf h =>
    obtain ⟨t, ht, rfl⟩ := h.exists_used hend
    exact ⟨[t], rfl, .oneOf (List.contains_iff_mem.mp ht)⟩
  | @rule r here outer tokens trees rest h ih =>
    rw [r.form_phrase] at ih
    obtain ⟨used, htokens, hgives⟩ := ih (Rule.hasEnd_form (of_decide_eq_false hend))
    exact ⟨used, htokens, .rule hgives⟩
  | seq ha hb iha ihb =>
    simp only [Phrase.form, Form.hasEnd, Bool.or_eq_false_iff] at hend
    obtain ⟨used, rfl, hu⟩ := iha hend.1
    obtain ⟨more, rfl, hv⟩ := ihb hend.2
    refine ⟨used ++ more, (List.append_assoc ..).symm, ?_⟩
    rw [List.map_append]
    exact .seq hu hv
  | skip hs hc => exact ⟨[], rfl, .none⟩
  | take hs hc ha ih =>
    obtain ⟨used, htokens, hgives⟩ := ih hend
    exact ⟨used, htokens, .some hgives⟩
  | stop hs hc => exact ⟨[], rfl, .nil⟩
  | again hs hc ha hg hm iha ihm =>
    obtain ⟨used, rfl, hu⟩ := iha hend
    obtain ⟨more, rfl, hv⟩ := ihm hend
    refine ⟨used ++ more, (List.append_assoc ..).symm, ?_⟩
    rw [List.map_append]
    exact .cons hu hv
  | idle hc ha hm ih =>
    obtain ⟨used, htokens, hgives⟩ := ih hend
    refine ⟨used, htokens, ?_⟩
    rw [← List.append_nil (used.map _)]
    exact .cons hgives .nil
  | first hs hc ha ih =>
    simp only [Phrase.form, Form.hasEnd, Bool.or_eq_false_iff] at hend
    obtain ⟨used, htokens, hgives⟩ := ih hend.1
    exact ⟨used, htokens, .left hgives⟩
  | second hs hc hb ih =>
    simp only [Phrase.form, Form.hasEnd, Bool.or_eq_false_iff] at hend
    obtain ⟨used, htokens, hgives⟩ := ih hend.2
    exact ⟨used, htokens, .right hgives⟩

theorem readToken_error {form : Phrase} {accepts : Kind → Bool}
    {safe : form.advances = true → accepts .eof = false} {failure : Except SyntaxError SyntaxError}
    {tokens : List Token} (h : readToken ending form accepts safe failure tokens = .error e) :
    e.token? = none ∨ failure.bind .error = (.error e : Except SyntaxError SyntaxError) := by
  have hfail : failure.bind .error = (.error e : Except SyntaxError (Parsed form tokens)) →
      failure.bind .error = (.error e : Except SyntaxError SyntaxError) := by
    cases failure <;> exact fun h => by cases h; rfl
  cases tokens with
  | nil =>
    simp only [readToken] at h
    split at h
    · next hend =>
      cases h
      have hlook : look ending [] 0 = .error e := hend
      exact .inl (look_error hlook)
    · split at h
      · cases h
      · exact .inr (hfail h)
  | cons t rest =>
    simp only [readToken] at h
    split at h
    · split at h
      · next hlook =>
        cases h
        exact .inl (look_error hlook)
      · cases h
    · exact .inr (hfail h)

variable {ps : List Phrase} {tokens : List Token}

theorem unexpected_blames {k : Kind} {after : List Phrase} (hps : ∀ p ∈ ps, p.proper = true)
    (h : (unexpected ending k after tokens).bind .error = (.error e : Except SyntaxError SyntaxError)) :
    Blames ending ps tokens e := by
  simp only [unexpected, bind, Except.bind] at h
  split at h
  · next hfail =>
    split at hfail
    · next hlook =>
      cases hfail
      cases h
      exact .of_none (look_error hlook)
    split at hfail
    · next hlook =>
      cases hfail
      cases h
      exact .of_none (look_error hlook)
    · split at hfail
      · cases hfail
      · split at hfail <;> cases hfail
  · next hfail =>
    split at hfail
    · cases hfail
    next t hlook =>
    split at hfail
    · cases hfail
    cases h
    split at hfail
    · cases hfail
      exact .here rfl hlook hps
    · split at hfail
      · cases hfail
        exact .here rfl hlook hps
      · cases hfail
        exact .here rfl hlook hps

theorem mismatched_blames {ks : List Kind} (hps : ∀ p ∈ ps, p.proper = true)
    (h : ((look ending tokens 0).map fun t => SyntaxError.mismatched t ks).bind .error =
      (.error e : Except SyntaxError SyntaxError)) : Blames ending ps tokens e := by
  cases hlook : look ending tokens 0 with
  | error x =>
    rw [hlook] at h
    cases h
    exact .of_none (look_error hlook)
  | ok t =>
    rw [hlook] at h
    cases h
    exact .here rfl hlook hps

theorem checkStart_blames {here outer : List Phrase} (hps : ∀ p ∈ ps, p.proper = true)
    (h : checkStart ending here outer tokens = .error e) : Blames ending ps tokens e := by
  simp only [checkStart, bind, Except.bind] at h
  split at h
  · next hlook =>
    cases h
    exact .of_none (look_error hlook)
  next t hlook =>
  split at h
  · cases h
  split at h
  · next hlook₂ =>
    cases h
    exact .of_none (look_error hlook₂)
  split at h
  · cases h
    exact .here rfl hlook hps
  · cases h
    exact .here rfl hlook hps

theorem checkAgain_blames {here outer : List Phrase} (hps : ∀ p ∈ ps, p.proper = true)
    (h : checkAgain ending here outer tokens = .error e) : Blames ending ps tokens e := by
  simp only [checkAgain, bind, Except.bind] at h
  split at h
  · next hlook =>
    cases h
    exact .of_none (look_error hlook)
  next t hlook =>
  split at h
  · cases h
  cases h
  exact .here rfl hlook hps

theorem parse_blames (ending : Ending) (form : Phrase) (here outer : List Phrase) (tokens : List Token)
    (hform : form.proper = true) (hend : form.form.hasEnd = false)
    (hafter : ∀ p ∈ here ++ outer, p.proper = true) {e : SyntaxError}
    (h : parse ending form here outer tokens = .error e) :
    Blames ending (form :: (here ++ outer)) tokens e := by
  revert e
  fun_induction parse ending form here outer tokens
  all_goals
    intro e h
    have hall := proper_cons hform hafter
  case case2 =>
    rcases readToken_error h with hnone | hfail
    · exact .of_none hnone
    · exact unexpected_blames hall hfail
  case case3 =>
    rcases readToken_error h with hnone | hfail
    · exact .of_none hnone
    · exact mismatched_blames hall hfail
  all_goals cases h
  case case4 r _ hr ih =>
    have hr' := Rule.hasEnd_form (of_decide_eq_false hend)
    rw [← r.form_phrase] at hr'
    exact (ih r.proper_phrase hr' hafter hr).mono fun w => yields_rule.mpr
  case case6 a b _ ha ih =>
    simp only [proper, Bool.and_eq_true] at hform
    simp only [Phrase.form, Form.hasEnd, Bool.or_eq_false_iff] at hend
    exact (ih hform.1 hend.1 (proper_cons hform.2 hafter) ha).mono fun w => yields_seq.mpr
  case case7 a b p hp _ hb iha ihb =>
    simp only [proper, Bool.and_eq_true] at hform
    simp only [Phrase.form, Form.hasEnd, Bool.or_eq_false_iff] at hend
    obtain ⟨used, htokens, hgives⟩ := (parse_reads _ _ _ _ _ p hp).exists_gives hend.1
    exact (ihb hform.2 hend.2 hafter hb).behind htokens fun w hw => yields_seq.mpr (hgives.yields hw)
  case case9 hs => exact checkStart_blames hall hs
  case case10 hc => exact Choice.option_blames hform hafter hc
  case case12 c a _ _ _ _ ha ih =>
    simp only [proper, Bool.and_eq_true] at hform
    exact (ih hform.1 hend hafter ha).mono fun w hw => yields_option.mpr (.inr hw)
  case case14 hs => exact checkStart_blames hall hs
  case case15 hc => exact .of_none (Choice.many_error hform hc)
  case case17 c a _ _ _ _ ha ih =>
    have hbody := (Bool.and_eq_true_iff.mp hform).1
    exact (ih hbody hend hall ha).mono fun w hw => yields_many.mpr (.inr hw)
  case case18 c a _ _ _ p hp _ hg ih =>
    obtain ⟨used, htokens, hgives⟩ := (parse_reads _ _ _ _ _ p hp).exists_gives hend
    exact (checkAgain_blames hall hg).behind htokens fun w hw => yields_many.mpr (.inr (hgives.yields hw))
  case case19 c a _ _ _ p hp _ _ _ _ hm _ ihm =>
    obtain ⟨used, htokens, hgives⟩ := (parse_reads _ _ _ _ _ p hp).exists_gives hend
    exact (ihm hform hend hafter hm).behind htokens fun w hw => yields_many.mpr (.inr (hgives.yields hw))
  case case22 hs => exact checkStart_blames hall hs
  case case23 hc => exact Choice.either_blames hform hafter hc
  case case24 c a b _ _ _ _ ha ih =>
    simp only [proper, Bool.and_eq_true] at hform
    simp only [Phrase.form, Form.hasEnd, Bool.or_eq_false_iff] at hend
    exact (ih hform.1.1 hend.1 hafter ha).mono fun w hw => yields_either.mpr (.inl hw)
  case case26 c a b _ _ _ _ hb ih =>
    simp only [proper, Bool.and_eq_true] at hform
    simp only [Phrase.form, Form.hasEnd, Bool.or_eq_false_iff] at hend
    exact (ih hform.1.2 hend.2 hafter hb).mono fun w hw => yields_either.mpr (.inr hw)

theorem parse_program_blames (h : parse ending Rule.program.phrase [] [] tokens = .error e) :
    Blames ending [.rule .program] tokens e := by
  have hshape : Rule.program.phrase = seq (many .byToken (rule .declaration)) (token .eof) := rfl
  rw [hshape, parse] at h
  have hopen : ∀ w, Yields [many .byToken (rule .declaration), token .eof] w → Yields [rule .program] w :=
    fun w hw => yields_rule.mpr (yields_seq.mpr hw)
  split at h
  · next hdeclarations =>
    cases h
    exact (parse_blames _ _ _ _ _ (by decide) rfl (by decide) hdeclarations).mono hopen
  next p hp =>
  obtain ⟨used, htokens, hgives⟩ := (parse_reads _ _ _ _ _ p hp).exists_gives rfl
  rw [parse] at h
  split at h
  · next hfinish =>
    cases h
    have hproper : ∀ p ∈ [token Kind.eof], p.proper = true := by decide
    have hblames : Blames ending [token .eof] p.rest e := by
      rcases readToken_error hfinish with hnone | hfail
      · exact .of_none hnone
      · exact unexpected_blames hproper hfail
    exact hblames.behind htokens fun w hw => hopen _ (hgives.yields hw)
  · cases h

end Reader

end CompiScript
