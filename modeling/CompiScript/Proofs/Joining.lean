import CompiScript.Proofs.Acceptance.Sentences
import CompiScript.Proofs.Printing

namespace CompiScript

open Phrase

section Reader

variable {p p' : Position} {tokens tokens' more : List Token}

def Parsed.Extends {form : Phrase} (more : List Token) (q : Parsed form tokens) (q' : Parsed form tokens') : Prop :=
  q'.trees = q.trees ∧ q'.rest = q.rest ++ more

theorem readToken_append {form : Phrase} (accepts : Kind → Bool) (heof : accepts .eof = false)
    (htokens : tokens' = tokens ++ more) {safe : form.advances = true → accepts .eof = false}
    {failure failure' : Except SyntaxError SyntaxError} {q : Parsed form tokens}
    (hq : readToken (.finish p) form accepts safe failure tokens = .ok q) :
    ∃ q', readToken (.finish p') form accepts safe failure' tokens' = .ok q' ∧ q.Extends more q' := by
  subst htokens
  have hfail : failure.bind .error ≠ (.ok q : Except SyntaxError (Parsed form tokens)) := by
    cases failure <;> simp [Except.bind]
  cases tokens with
  | nil =>
    simp only [readToken, Ending.token, heof] at hq
    exact absurd hq hfail
  | cons t ts =>
    obtain ⟨u, -, hu, -⟩ := look_first ts p
    obtain ⟨u', -, hu', -⟩ := look_first (ts ++ more) p'
    simp only [List.cons_append, readToken, hu, hu'] at hq ⊢
    split at hq
    · next haccepts =>
      cases hq
      exact ⟨_, if_pos haccepts, rfl, rfl⟩
    · exact absurd hq hfail

section Checks

variable {form : Phrase} {here outer : List Phrase}

theorem checkStart_append (p' : Position) (hmore : Continues (here ++ outer) more)
    (htokens : tokens' = tokens ++ more) (h : Yields (form :: (here ++ outer)) (Token.kinds tokens)) :
    checkStart (.finish p') (form :: here) outer tokens' = .ok () := by
  subst htokens
  exact checkStart_ok ((hmore.cons form).yields tokens h)

theorem checkAgain_append (p' : Position) (hmore : Continues (here ++ outer) more)
    (htokens : tokens' = tokens ++ more) (h : Yields (form :: here ++ outer) (Token.kinds tokens)) :
    checkAgain (.finish p') (form :: here) outer tokens' = .ok () := by
  subst htokens
  exact checkAgain_ok ((hmore.cons form).yields tokens h)

theorem Choice.Right.decide_append {c : Choice} {part : Phrase} {after yes no : List Phrase} {b : Bool}
    (hright : c.Right part after yes no) (p' : Position) (hyes : Continues yes more) (hno : Continues no more)
    (htokens : tokens' = tokens ++ more) (h : Yields yes (Token.kinds tokens) ∨ Yields no (Token.kinds tokens))
    (hb : c.decide (.finish p) part after tokens = .ok b) : c.decide (.finish p') part after tokens' = .ok b := by
  subst htokens
  exact hright.lasts p p' tokens more b hyes hno h hb

end Checks

theorem parse_append (p p' : Position) (form : Phrase) (here outer : List Phrase) (tokens : List Token)
    (hready : Ready form (here ++ outer)) (h : Yields (form :: (here ++ outer)) (Token.kinds tokens))
    (hmore : Continues (here ++ outer) more) (htokens : tokens' = tokens ++ more) {q : Parsed form tokens}
    (hq : parse (.finish p) form here outer tokens = .ok q) :
    ∃ q', parse (.finish p') form here outer tokens' = .ok q' ∧ q.Extends more q' := by
  revert q hq tokens'
  fun_induction parse (.finish p) form here outer tokens
  case case2 k =>
    intro tokens' htokens q hq
    rw [parse]
    have heof : (Kind.eof == k) = false := beq_eq_false_iff_ne.mpr (Ne.symm hready)
    exact readToken_append (· == k) heof htokens hq
  case case3 ks =>
    intro tokens' htokens q hq
    rw [parse]
    have heof : Kind.eof ∉ ks := hready
    exact readToken_append ks.contains (by simpa using heof) htokens hq
  -- What is left ends in an error, or takes the same way with more tokens.
  all_goals
    intro tokens' htokens q hq
    cases hq
  case case1 =>
    rw [parse]
    exact ⟨_, rfl, rfl, htokens⟩
  case case5 r q hq ih =>
    obtain ⟨q', hq', htrees, hrest⟩ := ih (ready_rule r _ hready.1 hready.2) (yields_rule.mp h) hmore htokens hq
    rw [parse, hq']
    exact ⟨_, rfl, by rw [htrees], hrest⟩
  case case8 q hq q₂ hq₂ iha ihb =>
    have hyields := (parse_ok ready_rule p _ _ _ _ hready.1 (yields_seq.mp h)).of_ok hq
    obtain ⟨q', hq', htrees, hrest⟩ := iha hready.1 (yields_seq.mp h) (hmore.cons _) htokens hq
    obtain ⟨q₂', hq₂', htrees₂, hrest₂⟩ := ihb hready.2 hyields hmore hrest hq₂
    rw [parse, hq']
    simp only [hq₂']
    exact ⟨_, rfl, by rw [htrees, htrees₂], hrest₂⟩
  case case11 c a _ hs hc =>
    have hdecide := hready.2.decide_append p' (hmore.cons a) hmore htokens (yields_option.mp h).symm hc
    rw [parse, checkStart_append p' hmore htokens h]
    simp only [hdecide]
    exact ⟨_, rfl, rfl, htokens⟩
  case case13 c a _ hs hc q hq ih =>
    have hyields := (hready.2.finds p _ (yields_option.mp h).symm).of_ok hc
    have hdecide := hready.2.decide_append p' (hmore.cons a) hmore htokens (yields_option.mp h).symm hc
    obtain ⟨q', hq', hextends⟩ := ih hready.1 hyields hmore htokens hq
    rw [parse, checkStart_append p' hmore htokens h]
    simp only [hdecide, hq']
    exact ⟨_, rfl, hextends⟩
  case case16 c a _ hs hc =>
    have hdecide := hready.2.2.decide_append p' ((hmore.cons _).cons a) hmore htokens (yields_many.mp h).symm hc
    rw [← List.cons_append] at hdecide
    rw [parse, checkStart_append p' hmore htokens h]
    simp only [hdecide]
    exact ⟨_, rfl, rfl, htokens⟩
  case case20 c a _ hs hc q hq _ hg hless q₂ hq₂ iha ihm =>
    have hyields : Yields (a :: (many c a :: _ ++ _)) _ := (hready.2.2.finds p _ (yields_many.mp h).symm).of_ok hc
    have hdecide := hready.2.2.decide_append p' ((hmore.cons _).cons a) hmore htokens (yields_many.mp h).symm hc
    rw [← List.cons_append] at hdecide
    have hyields₂ := (parse_ok ready_rule p _ _ _ _ hready.2.1 hyields).of_ok hq
    obtain ⟨q', hq', htrees, hrest⟩ := iha hready.2.1 hyields (hmore.cons _) htokens hq
    obtain ⟨q₂', hq₂', htrees₂, hrest₂⟩ := ihm hready hyields₂ hmore hrest hq₂
    have hagain := checkAgain_append p' hmore hrest hyields₂
    have hless' : q'.rest.length < tokens'.length := by
      rw [hrest, htokens, List.length_append, List.length_append]
      omega
    rw [parse, checkStart_append p' hmore htokens h]
    simp only [hdecide, hq', hagain, dif_pos hless', hq₂']
    exact ⟨_, rfl, by rw [htrees, htrees₂], hrest₂⟩
  case case21 q hq _ hg hidle ih => exact absurd (q.rest_lt hready.1) hidle
  case case25 c a b _ hs hc q hq ih =>
    have hyields := (hready.2.2.finds p _ (yields_either.mp h)).of_ok hc
    have hdecide := hready.2.2.decide_append p' (hmore.cons a) (hmore.cons b) htokens (yields_either.mp h) hc
    obtain ⟨q', hq', hextends⟩ := ih hready.1 hyields hmore htokens hq
    rw [parse, checkStart_append p' hmore htokens h]
    simp only [hdecide, hq']
    exact ⟨_, rfl, hextends⟩
  case case27 c a b _ hs hc q hq ih =>
    have hyields := (hready.2.2.finds p _ (yields_either.mp h)).of_ok hc
    have hdecide := hready.2.2.decide_append p' (hmore.cons a) (hmore.cons b) htokens (yields_either.mp h) hc
    obtain ⟨q', hq', hextends⟩ := ih hready.2.1 hyields hmore htokens hq
    rw [parse, checkStart_append p' hmore htokens h]
    simp only [hdecide, hq']
    exact ⟨_, rfl, hextends⟩

end Reader

section Programs

abbrev declarations : Phrase :=
  many .byToken (rule .declaration)

theorem Gives.many_yields {c : Choice} {a : Phrase} {C : List Phrase} {u v : List Kind} (hu : Gives (many c a) u)
    (hv : Yields (many c a :: C) v) : Yields (many c a :: C) (u ++ v) := by
  generalize hform : many c a = form at hu
  induction hu with
  | nil =>
    cases hform
    exact hv
  | cons ha hm iha ihm =>
    cases hform
    rw [List.append_assoc]
    exact yields_many.mpr (.inr (ha.yields (ihm rfl)))
  | _ => cases hform

theorem continues_declarations {more : List Token} (h : Yields [declarations, token .eof] (Token.kinds more)) :
    Continues [declarations, token .eof] more := by
  refine ⟨?_, ?_, rfl⟩
  · rintro ts ⟨u, v, huv, hu, hv⟩
    obtain ⟨_, rfl, rfl⟩ := yields_token.mp hv
    obtain ⟨rfl, -⟩ := List.append_inj' huv rfl
    rw [kinds_append]
    exact hu.many_yields h
  · intro w hw
    rw [hw] at h
    cases h.canStart_all

theorem parse_declarations_yields {p : Position} {tokens : List Token} (hspelt : ∀ t ∈ tokens, t.toLexeme.Spelt)
    {q : Parsed declarations tokens} (hq : parse (.finish p) declarations [token .eof] [] tokens = .ok q)
    (hrest : q.rest = []) : Yields [declarations, token .eof] (Token.kinds tokens) := by
  have hreads := parse_reads _ _ _ _ _ q hq
  have hderives := (hreads.spells hspelt).derives
  obtain ⟨used, n, htokens, -, hleaves⟩ := hreads.covers
  rw [hrest, List.append_nil] at htokens
  subst htokens
  have hn : n = 0 := by
    by_contra hn
    refine hderives.kind_ne_eof rfl .eof ?_ rfl
    simp [hleaves, hn]
  have hgives : Gives declarations (Tree.kinds q.trees) := hderives.gives rfl
  rw [Tree.kinds, hleaves, hn, List.replicate_zero, List.append_nil, List.map_map] at hgives
  exact hgives.yields (yields_token.mpr ⟨[], rfl, rfl⟩)

theorem isRule_of_spells_many {c : Choice} {r : Rule} {ts : List Tree} (h : Spells (many c (rule r)) ts) :
    ∀ t ∈ ts, t.isRule r = true := by
  generalize hform : many c (rule r) = form at h
  induction h with
  | nil => exact fun _ ht => nomatch ht
  | cons ha hm iha ihm =>
    cases hform
    cases ha
    exact List.forall_mem_cons.mpr ⟨by simp [Tree.isRule], ihm rfl⟩
  | _ => cases hform

section Many

variable {ending : Ending} {c : Choice} {a : Phrase} {here outer : List Phrase} {tokens : List Token}
  (hdecide : c.decide ending a (many c a :: here ++ outer) tokens = .ok true) (ha : a.advances = true)

include hdecide ha

theorem parse_many_eq_ok {q : Parsed (many c a) tokens} (h : parse ending (many c a) here outer tokens = .ok q) :
    ∃ q₁ q₂, parse ending a (many c a :: here) outer tokens = .ok q₁ ∧
      parse ending (many c a) here outer q₁.rest = .ok q₂ ∧ q.trees = q₁.trees ++ q₂.trees ∧ q.rest = q₂.rest := by
  rw [parse] at h
  simp only [hdecide] at h
  split at h
  · cases h
  · split at h
    · cases h
    · next q₁ hq₁ =>
      split at h
      · cases h
      · rw [dif_pos (q₁.rest_lt ha)] at h
        split at h
        · cases h
        · next q₂ hq₂ =>
          cases h
          exact ⟨q₁, q₂, hq₁, hq₂, rfl, rfl⟩

theorem parse_many_again (hstart : checkStart ending (many c a :: here) outer tokens = .ok ()) {q₁ : Parsed a tokens}
    (hq₁ : parse ending a (many c a :: here) outer tokens = .ok q₁)
    (hagain : checkAgain ending (many c a :: here) outer q₁.rest = .ok ()) {q₂ : Parsed (many c a) q₁.rest}
    (hq₂ : parse ending (many c a) here outer q₁.rest = .ok q₂) :
    Succeeds (parse ending (many c a) here outer tokens) fun q =>
      q.trees = q₁.trees ++ q₂.trees ∧ q.rest = q₂.rest := by
  rw [parse, hstart]
  simp only [hdecide, hq₁, hagain, dif_pos (q₁.rest_lt ha), hq₂]
  exact ⟨_, rfl, rfl, rfl⟩

end Many

theorem decide_declaration {p : Position} {after : List Phrase} {k : Kind} {w : List Kind} {tokens : List Token}
    (hk : Token.kinds tokens = k :: w) :
    Choice.byToken.decide (.finish p) (rule .declaration) after tokens = .ok (Rule.declaration.starts k) := by
  obtain ⟨t, hlook, rfl⟩ : ∃ t, look (.finish p) tokens 0 = .ok t ∧ t.kind = k := look_kinds (by rw [hk]; rfl)
  simp [Choice.decide, hlook, Except.map, Phrase.starts, startsWith]

theorem parse_declarations_append {p p' : Position} {first second tokens : List Token}
    (hfirst : Yields [declarations, token .eof] (Token.kinds first))
    (hsecond : Yields [declarations, token .eof] (Token.kinds second)) (htokens : tokens = first ++ second)
    {q : Parsed declarations first} {r : Parsed declarations second}
    (hq : parse (.finish p) declarations [token .eof] [] first = .ok q) (hrest : q.rest = [])
    (hr : parse (.finish p') declarations [token .eof] [] second = .ok r) :
    ∃ s, parse (.finish p') declarations [token .eof] [] tokens = .ok s ∧ s.trees = q.trees ++ r.trees ∧
      s.rest = r.rest := by
  induction hlength : first.length using Nat.strongRecOn generalizing first tokens with
  | ind n ih =>
    have hcontinues := continues_declarations hsecond
    cases first with
    | nil =>
      have hdecide : Choice.byToken.decide (.finish p) (rule .declaration) [declarations, token .eof] [] = .ok false :=
        decide_declaration (k := .eof) rfl
      rw [parse] at hq
      simp only [List.append_nil, hdecide] at hq
      subst htokens
      split at hq
      · cases hq
      · cases hq
        exact ⟨r, hr, rfl, rfl⟩
    | cons t ts =>
      -- There is a token left, so there is another declaration.
      have hyields : Yields (rule .declaration :: declarations :: [token .eof]) (Token.kinds (t :: ts)) := by
        rcases yields_many.mp hfirst with h | h
        · obtain ⟨v, hv, hnil⟩ := yields_token.mp h
          exact absurd ((List.cons.inj hv).2.trans hnil) (kinds_ne_nil ts)
        · exact h
      have hdecide : ∀ (q : Position) (us : List Token),
          Choice.byToken.decide (.finish q) (rule .declaration) [declarations, token .eof] (t :: us) = .ok true := by
        intro q us
        rw [decide_declaration rfl, hyields.starts_rule]
      obtain ⟨q₁, q₂, hq₁, hq₂, htrees, hrest₂⟩ := parse_many_eq_ok (hdecide p ts) rfl hq
      have hleft := (parse_ok ready_rule p _ _ _ _ ready_declarations.2.1 hyields).of_ok hq₁
      obtain ⟨s₁, hs₁, htrees₁, hrest₁⟩ :=
        parse_append p p' _ _ _ _ ready_declarations.2.1 hyields hcontinues htokens hq₁
      have hshorter : q₁.rest.length < n := hlength ▸ q₁.rest_lt rfl
      obtain ⟨s₂, hs₂, hstrees, hsrest⟩ := ih _ hshorter hleft hrest₁ hq₂ (hrest₂.symm.trans hrest) rfl
      have hall : Yields [declarations, token .eof] (Token.kinds tokens) := htokens ▸ hcontinues.yields _ hfirst
      have hagain : Yields [declarations, token .eof] (Token.kinds s₁.rest) := hrest₁ ▸ hcontinues.yields _ hleft
      have hdecide' : Choice.byToken.decide (.finish p') (rule .declaration) (declarations :: [token .eof] ++ []) tokens =
          .ok true :=
        htokens ▸ hdecide p' (ts ++ second)
      obtain ⟨s, hs, hsum, hend⟩ :=
        parse_many_again hdecide' rfl (checkStart_ok hall) hs₁ (checkAgain_ok hagain) hs₂
      exact ⟨s, hs, by rw [hsum, htrees₁, hstrees, htrees, List.append_assoc], hend.trans hsrest⟩

theorem ofString_append {a b : String} {p q : Position} (ha : (Lexed.ofString a).ending = .finish p)
    (hb : (Lexed.ofString b).ending = .finish q) :
    ∃ r, (Lexed.ofString (a ++ "\n" ++ b)).ending = .finish r ∧
      Relabelled id ((Lexed.ofString a).tokens ++ (Lexed.ofString b).tokens)
        (Lexed.ofString (a ++ "\n" ++ b)).tokens := by
  have hlexes := (Lexes.of_finish ha).append (Lexes.of_finish hb)
  have htext : a.toList ++ '\n' :: b.toList = (a ++ "\n" ++ b).toList := by simp
  rw [htext, ← List.map_append] at hlexes
  exact hlexes.scan .start

/-- Two programs with a line feed between them are a program: first the declarations of the one, then those of the
other, and the end of the text. -/
theorem programs_join {a b : String} {d e : Derived} (ha : parseText .program a = .ok d)
    (hb : parseText .program b = .ok e) :
    ∃ xs ys f, d.tree = .node .program (xs ++ [.leaf .eof]) ∧ e.tree = .node .program (ys ++ [.leaf .eof]) ∧
      (∀ t ∈ xs ++ ys, t.isRule .declaration = true) ∧ parseText .program (a ++ "\n" ++ b) = .ok f ∧
      f.tree = .node .program (xs ++ ys ++ [.leaf .eof]) := by
  obtain ⟨pa, q, hfinish, hq, hrest, hd⟩ := parseText_declarations ha
  obtain ⟨pb, r, hfinish', hr, hrest', he⟩ := parseText_declarations hb
  have hfirst := parse_declarations_yields (Lexed.ofString_spelt a) hq hrest
  have hsecond := parse_declarations_yields (Lexed.ofString_spelt b) hr hrest'
  obtain ⟨s, hs, htrees, hsrest⟩ := parse_declarations_append hfirst hsecond rfl hq hrest hr
  -- The tokens of the whole text are those of its parts but for their places, which the reader does not see.
  obtain ⟨p, hend, htokens⟩ := ofString_append hfinish hfinish'
  obtain ⟨s', hs', htrees', hrelabelled⟩ := parse_relabel (f := id) (fun _ => rfl) rfl pb p _ _ _ _ htokens hs
  have hnil : s'.rest = [] := by
    rw [Relabelled, hsrest, hrest'] at hrelabelled
    exact List.map_eq_nil_iff.mp hrelabelled
  obtain ⟨u, hu, hutrees⟩ := parse_program_of_declarations hs' hnil
  obtain ⟨t, w, hlook, -⟩ := look_first (Lexed.ofString (a ++ "\n" ++ b)).tokens p
  have hread : ∃ f, parseText .program (a ++ "\n" ++ b) = .ok f ∧ f.tree = .node .program u.trees := by
    simp only [parseText, Lexed.parse, hend, hlook, hu, bind, Except.bind]
    exact ⟨_, rfl, rfl⟩
  obtain ⟨f, hf, htree⟩ := hread
  refine ⟨q.trees, r.trees, f, hd, he, ?_, hf, ?_⟩
  · intro t ht
    rcases List.mem_append.mp ht with ht | ht
    · exact isRule_of_spells_many ((parse_reads _ _ _ _ _ q hq).spells (Lexed.ofString_spelt a)) t ht
    · exact isRule_of_spells_many ((parse_reads _ _ _ _ _ r hr).spells (Lexed.ofString_spelt b)) t ht
  · rw [htree, hutrees, htrees', Tree.relabelAll_id, htrees]

theorem programs_join_open_if : ∃ d e xs ys f,
    parseText .program "if (a) while (b) c = 1; // d" = .ok d ∧ parseText .program "f = fun () { };" = .ok e ∧
    d.tree = .node .program (xs ++ [.leaf .eof]) ∧ e.tree = .node .program (ys ++ [.leaf .eof]) ∧
    parseText .program ("if (a) while (b) c = 1; // d" ++ "\n" ++ "f = fun () { };") = .ok f ∧
    f.tree = .node .program (xs ++ ys ++ [.leaf .eof]) := by
  obtain ⟨d, hd, -⟩ := Syntax.exists_derived "if (a) while (b) c = 1; // d" (fun _ => true) (by decide +kernel)
  obtain ⟨e, he, -⟩ := Syntax.exists_derived "f = fun () { };" (fun _ => true) (by decide +kernel)
  obtain ⟨xs, ys, f, hxs, hys, -, hf, htree⟩ := programs_join hd he
  exact ⟨d, e, xs, ys, f, hd, he, hxs, hys, hf, htree⟩

end Programs

end CompiScript
