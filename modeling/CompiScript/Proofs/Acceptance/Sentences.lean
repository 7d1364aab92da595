import CompiScript.Proofs.Acceptance.Reader

namespace CompiScript

open Phrase

section Choices

variable {a b : Phrase} {C : List Phrase} {k : Kind} {w : List Kind}

theorem Yields.starts_of_nullable (h : Yields (a :: C) (k :: w)) (ha : a.nullable = false) : a.starts k = true := by
  have hcases : Phrase.canStart [a] k = true ∨ canEnd [a] = true ∧ Yields C (k :: w) := h.canStart
  simpa [Phrase.canStart, canEnd, ha] using hcases

theorem right_byToken {after yes no : List Phrase}
    (hyes : ∀ k w, Yields yes (k :: w) → a.starts k = true)
    (hno : ∀ k w, Yields no (k :: w) → a.starts k = false) : Choice.byToken.Right a after yes no := by
  have hdecide : ∀ (p : Position) (tokens : List Token), ∃ k w, Token.kinds tokens = k :: w ∧
      Choice.byToken.decide (.finish p) a after tokens = .ok (a.starts k) := by
    intro p tokens
    obtain ⟨t, w, hlook, hk⟩ := look_first tokens p
    exact ⟨t.kind, w, hk, by simp [Choice.decide, hlook, Except.map]⟩
  refine .of_sure (fun p tokens h => ?_) fun p tokens h => ?_
  · obtain ⟨k, w, hk, hstarts⟩ := hdecide p tokens
    rw [hstarts, hyes k w (hk ▸ h)]
  · obtain ⟨k, w, hk, hstarts⟩ := hdecide p tokens
    rw [hstarts, hno k w (hk ▸ h)]

theorem right_either {after : List Phrase} (ha : a.nullable = false) (hb : b.nullable = false)
    (hapart : apart a.starts b.starts = true) : Choice.byToken.Right a after (a :: C) (b :: C) := by
  refine right_byToken (fun k w h => h.starts_of_nullable ha) fun k w h => ?_
  have hstarts := h.starts_of_nullable hb
  cases hk : a.starts k with
  | false => rfl
  | true =>
    rw [apart_iff.mp hapart k hk] at hstarts
    cases hstarts

theorem right_optional {after D : List Phrase} (ha : a.nullable = false)
    (hapart : apart a.starts (canStart C) = true) : Choice.byToken.Right a after (a :: D) C := by
  refine right_byToken (fun k w h => h.starts_of_nullable ha) fun k w h => ?_
  have hstarts := h.canStart_all
  cases hk : a.starts k with
  | false => rfl
  | true =>
    rw [apart_iff.mp hapart k hk] at hstarts
    cases hstarts

end Choices

def Phrase.plain : Phrase → Bool
  | nothing => true
  | token k => k != .eof
  | oneOf ks => !ks.contains .eof
  | rule r => r != .program
  | seq a b => a.plain && b.plain
  | option c a => a.plain && (c == .byToken && a != elsePart || c == .nearestIf && a == elsePart)
  | many c a => a.plain && a.advances && c == .byToken
  | either c a b => a.plain && b.plain && c == .byToken

theorem ready_of_fits {p : Phrase} {C : List Phrase} (hplain : p.plain = true) (hfits : p.fits (canStart C) = true)
    (hC : Dangling C) (hend : canEnd C = false) : Ready p C := by
  induction p generalizing C with
  | nothing => trivial
  | token k => exact bne_iff_ne.mp hplain
  | oneOf ks =>
    have heof : Kind.eof ∉ ks := by simpa [plain] using hplain
    exact heof
  | rule r =>
    refine ⟨bne_iff_ne.mp hplain, ?_, ?_, hC, hend⟩
    · exact fun k hk => .inl (within_iff.mp hfits k hk)
    · rintro rfl x hx
      cases within_iff.mp hfits _ hx.canStart_all
  | seq a b iha ihb =>
    simp only [plain, Bool.and_eq_true] at hplain
    simp only [fits, Bool.and_eq_true] at hfits
    exact ⟨iha (C := b :: C) hplain.1 hfits.1.1 (hC.cons hfits.2) (canEnd_cons hend),
      ihb hplain.2 hfits.1.2 hC hend⟩
  | option c a ih =>
    simp only [plain, Bool.and_eq_true, Bool.or_eq_true, beq_iff_eq, bne_iff_ne] at hplain
    simp only [fits, Bool.and_eq_true, Bool.or_eq_true, Bool.not_eq_true', beq_iff_eq] at hfits
    refine ⟨ih hplain.1 hfits.1.1 hC hend, ?_⟩
    rcases hplain.2 with ⟨rfl, ha⟩ | ⟨rfl, rfl⟩
    · exact right_optional hfits.1.2 (hfits.2.resolve_left ha)
    · constructor
      · intro p tokens h
        exact Choice.chooseElse_right hC hend (yields_option.mpr h.symm)
      · intro p p' tokens more b _ hmore h hb
        exact Choice.chooseElse_append hC hmore (yields_option.mpr h.symm) hb
  | many c a ih =>
    simp only [plain, Bool.and_eq_true, beq_iff_eq] at hplain
    simp only [fits, Bool.and_eq_true, Bool.not_eq_true'] at hfits
    obtain ⟨⟨⟨hbody, hnullable⟩, hapart⟩, hloose⟩ := hfits
    refine ⟨hplain.1.2, ih (C := many c a :: C) hplain.1.1 hbody (hC.cons hloose) (canEnd_cons hend), ?_⟩
    rw [hplain.2]
    exact right_optional hnullable hapart
  | either c a b iha ihb =>
    simp only [plain, Bool.and_eq_true, beq_iff_eq] at hplain
    simp only [fits, Bool.and_eq_true, Bool.not_eq_true'] at hfits
    obtain ⟨⟨⟨⟨hfitsa, hfitsb⟩, hnulla⟩, hnullb⟩, hapart⟩ := hfits
    refine ⟨iha hplain.1.1 hfitsa hC hend, ihb hplain.1.2 hfitsb hC hend, ?_⟩
    rw [hplain.2]
    exact right_either hnulla hnullb hapart

section Rules

variable {C : List Phrase}

theorem Rule.Admits.of_all {r s : Rule} (h : r.Admits C) (hs : ∀ k, s.follow k = true) (hcall : s ≠ .call) :
    s.Admits C :=
  ⟨fun k _ => .inl (hs k), fun hs' => absurd hs' hcall, h.dangling, h.more⟩

theorem Rule.Admits.follow_of_ne {r : Rule} (h : r.Admits C) (hr : r ≠ .call) (k : Kind)
    (hk : canStart C k = true) : r.follow k = true :=
  (h.follow k hk).resolve_right fun hcall => hr hcall.1

theorem ready_declaration (h : Rule.declaration.Admits C) : Ready Rule.declaration.phrase C := by
  have hrule : ∀ s : Rule, s ≠ .program → s ≠ .call → (∀ k, s.follow k = true) → Ready (rule s) C :=
    fun s hprogram hcall hs => ⟨hprogram, h.of_all hs hcall⟩
  refine ⟨hrule _ nofun nofun fun _ => rfl, ⟨hrule _ nofun nofun fun _ => rfl, ⟨hrule _ nofun nofun fun _ => rfl,
    hrule _ nofun nofun fun _ => rfl, ?_⟩, ?_⟩, ?_⟩
  · exact right_either rfl rfl (by decide +kernel)
  · exact .of_sure (fun _ _ => Choice.chooseNamed_declared) fun _ _ => Choice.chooseNamed_other
  · exact right_either rfl rfl (by decide +kernel)

theorem ready_expression (h : Rule.expression.Admits C) : Ready Rule.expression.phrase C := by
  have hfollow := h.follow_of_ne nofun
  refine ⟨⟨nofun, fun k hk => .inl (hfollow k hk), nofun, h.dangling, h.more⟩,
    ⟨nofun, h.of_all (fun _ => rfl) nofun⟩, ?_⟩
  constructor
  · intro p tokens hyields
    have hexpression : Yields (rule .expression :: C) (Token.kinds tokens) :=
      yields_rule.mpr (yields_either.mpr hyields)
    exact ⟨true, Choice.chooseWhole_right h.more hexpression, yields_expression.mp hexpression⟩
  · intro p p' tokens more b hmore _ hyields hb
    have hexpression : Yields (rule .expression :: C) (Token.kinds tokens) :=
      yields_rule.mpr (yields_either.mpr hyields)
    have hlonger := hmore.yields tokens (yields_expression.mp hexpression)
    have htrue := Choice.chooseWhole_right (p := p) h.more hexpression
    cases hb.symm.trans htrue
    exact Choice.chooseWhole_right h.more (yields_expression.mpr hlonger)

theorem ready_assigned (h : Rule.assignment.Admits C) : Ready Ahead.assigned C := by
  let value : Phrase := row [token .identifier, token .equal, rule .assignment]
  -- The object in front of a member is a call, and the member is assigned to.
  have hcall : Rule.call.Admits (token .dot :: value :: C) := by
    refine ⟨fun k hk => .inr ⟨rfl, ?_⟩, fun _ x hx => ?_, h.dangling.cons ?_ |>.cons rfl, rfl⟩
    · have hdot : .dot = k := by simpa [canStart, Phrase.starts, startsWith, nullable] using hk
      exact hdot.symm
    · obtain ⟨v, rfl, hv⟩ := yields_token.mp (yields_row.mp (yields_token_cons.mp hx).2)
      obtain ⟨y, rfl, -⟩ := yields_token.mp hv
      exact ⟨y, rfl⟩
    · rfl
  have htoken : ∀ {k : Kind} {D : List Phrase}, k ≠ .eof → Ready (token k) D := id
  refine ⟨⟨⟨⟨by decide, hcall⟩, htoken (by decide)⟩, ?_⟩, htoken (by decide), htoken (by decide), by decide, h⟩
  exact .of_sure (fun _ _ => Choice.chooseTarget_object) fun _ _ => Choice.chooseTarget_name

theorem ready_assignment (h : Rule.assignment.Admits C) : Ready Rule.assignment.phrase C := by
  have hfollow := h.follow_of_ne nofun
  refine ⟨ready_assigned h, ⟨nofun, fun k hk => .inl (hfollow k hk), nofun, h.dangling, h.more⟩, ?_⟩
  have hassignment : ∀ tokens : List Token, Yields (Ahead.assigned :: C) (Token.kinds tokens) ∨
      Yields (rule .logicOr :: C) (Token.kinds tokens) → Yields (rule .assignment :: C) (Token.kinds tokens) :=
    fun tokens hyields => yields_rule.mpr (yields_either.mpr hyields)
  constructor
  · intro p tokens hyields
    obtain ⟨t, w, -, hk⟩ := look_first tokens p
    exact Choice.chooseAssignment_right hfollow h.more hk (hk ▸ hassignment tokens hyields)
  · intro p p' tokens more b _ _ hyields hb
    exact Choice.chooseAssignment_append hfollow h.dangling (hassignment tokens hyields) hb

theorem ready_call (h : Rule.call.Admits C) : Ready Rule.call.phrase C := by
  have helse : canStart C .elseWord = false := by
    cases hk : canStart C .elseWord with
    | false => rfl
    | true => rcases h.follow _ hk with hfollow | ⟨-, hdot⟩ <;> cases ‹_›
  have hdangling : Dangling (Ahead.suffixes :: C) := h.dangling.cons (by simp [loose, helse]; decide)
  have hsuffix : Ready Ahead.suffix (Ahead.suffixes :: C) := by
    refine ready_of_fits (by decide) (fits_mono (fun _ _ => rfl) ?_) hdangling (canEnd_cons h.more)
    exact (by decide +kernel : Ahead.suffix.fits (fun _ => true) = true)
  have hprimary : Rule.primary.Admits (Ahead.suffixes :: C) :=
    ⟨fun k _ => .inl rfl, fun hcall => (by cases hcall), hdangling, canEnd_cons h.more⟩
  refine ⟨⟨⟨by decide, hprimary⟩, rfl, hsuffix, ?_⟩, ⟨by decide, h.of_all (fun _ => rfl) (by decide)⟩,
    right_either rfl rfl (by decide +kernel)⟩
  have hfollow : ∀ k, canStart C k = true → Rule.call.follow k = true ∨ k = .dot :=
    fun k hk => (h.follow k hk).imp_right And.right
  exact .of_sure (fun _ _ => Choice.chooseSuffix_again hfollow h.more)
    fun _ _ => Choice.chooseSuffix_stop hfollow (h.member rfl)

theorem ready_rule (r : Rule) (C : List Phrase) (hr : r ≠ .program) (h : r.Admits C) : Ready r.phrase C := by
  cases hsubtle : r.subtle with
  | true =>
    have hcases : r = .declaration ∨ r = .expression ∨ r = .assignment := by
      simpa [Rule.subtle, or_assoc] using hsubtle
    rcases hcases with rfl | rfl | rfl
    · exact ready_declaration h
    · exact ready_expression h
    · exact ready_assignment h
  | false =>
    by_cases hcall : r = .call
    · subst hcall
      exact ready_call h
    · have hplain : r.phrase.plain = true := by
        revert hr hsubtle hcall
        cases r <;> decide
      exact ready_of_fits hplain (fits_mono (h.follow_of_ne hcall) (Rule.fits_phrase hsubtle)) h.dangling h.more

end Rules

theorem ready_declarations : Ready (many .byToken (rule .declaration)) [token .eof] :=
  ready_of_fits (by decide) (by decide +kernel) (Dangling.nil.cons rfl) rfl

theorem parse_program_of_declarations {p : Position} {tokens : List Token}
    {q : Parsed (many .byToken (rule .declaration)) tokens}
    (hq : parse (.finish p) (many .byToken (rule .declaration)) [token .eof] [] tokens = .ok q) (hrest : q.rest = []) :
    Succeeds (parse (.finish p) Rule.program.phrase [] [] tokens) fun r => r.trees = q.trees ++ [.leaf .eof] := by
  have hshape : Rule.program.phrase = seq (many .byToken (rule .declaration)) (token .eof) := rfl
  have hend : Succeeds (parse (.finish p) (token .eof) [] [] q.rest) fun r => r.trees = [.leaf .eof] := by
    rw [parse]
    generalize q.rest = rest at hrest ⊢
    subst hrest
    exact ⟨_, rfl, rfl⟩
  obtain ⟨r, hr, htrees⟩ := hend
  rw [hshape, parse, hq]
  simp only [hr]
  exact ⟨_, rfl, by rw [htrees]⟩

theorem parse_program_ok {p : Position} {tokens : List Token} (h : Gives (.rule .program) (Token.kinds tokens)) :
    Succeeds (parse (.finish p) Rule.program.phrase [] [] tokens) fun _ => True := by
  have hyields : Yields (many .byToken (rule .declaration) :: ([token .eof] ++ [])) (Token.kinds tokens) :=
    yields_seq.mp (yields_rule.mp (yields_single.mpr h))
  obtain ⟨q, hq, hrest⟩ := parse_ok ready_rule p _ [token .eof] [] tokens ready_declarations hyields
  have hnil : q.rest = [] := by
    obtain ⟨w, hw, hnil⟩ := yields_token.mp hrest
    cases hrest' : q.rest with
    | nil => rfl
    | cons t ts =>
      rw [hrest'] at hw
      obtain ⟨-, rfl⟩ := List.cons.inj hw
      exact absurd hnil (kinds_ne_nil ts)
  obtain ⟨r, hr, -⟩ := parse_program_of_declarations hq hnil
  exact ⟨r, hr, trivial⟩

/-- A text whose tokens are a sentence of the grammar is read. -/
theorem parseText_of_sentence {text : String} {p : Position} (hend : (Lexed.ofString text).ending = .finish p)
    (h : Rule.program.Sentence ((Lexed.ofString text).tokens.map (·.kind) ++ [.eof])) :
    ∃ d, parseText .program text = .ok d := by
  obtain ⟨q, hq, -⟩ := parse_program_ok (p := p) (Rule.sentence_iff.mp h)
  obtain ⟨t, w, hlook, -⟩ := look_first (Lexed.ofString text).tokens p
  simp only [parseText, Lexed.parse, hend, hlook, hq, bind, Except.bind]
  exact ⟨_, rfl⟩

theorem parseText_of_sentence_member :
    (Lexed.ofString "a.b(c).d[e].f = g;").ending = .finish ⟨1, 18, 18⟩ ∧
      Rule.program.Sentence ((Lexed.ofString "a.b(c).d[e].f = g;").tokens.map (·.kind) ++ [.eof]) ∧
      ∃ d, parseText .program "a.b(c).d[e].f = g;" = .ok d := by
  have hend : (Lexed.ofString "a.b(c).d[e].f = g;").ending = .finish ⟨1, 18, 18⟩ := by
    decide +kernel
  have hrun : Ahead.run [.phrase (.rule .program)]
      ((Lexed.ofString "a.b(c).d[e].f = g;").tokens.map (·.kind) ++ [.eof]) = some [] := by
    decide +kernel
  have hyields : Yields ([] ++ []) [] := rfl
  have hsentence := Rule.sentence_iff.mpr (yields_single.mp (Ahead.run_completes hrun hyields))
  rw [List.append_nil] at hsentence
  exact ⟨hend, hsentence, parseText_of_sentence hend hsentence⟩

end CompiScript
