import CompiScript.Parser.Basic
import CompiScript.Proofs.Spelling

namespace CompiScript

inductive Taken (ending : Ending) (accepts : Kind → Bool) :
    List Token → Lexeme → List Token → Prop
  | step {t u : Token} {rest : List Token} (ha : accepts t.kind = true)
      (hl : look ending rest 0 = .ok u) : Taken ending accepts (t :: rest) t.toLexeme rest
  | finish {t : Token} (ha : accepts .eof = true) (ht : ending.token = .ok t) :
      Taken ending accepts [] t.toLexeme []

inductive Reads (ending : Ending) :
    Phrase → List Phrase → List Phrase → List Token → List Tree → List Token → Prop
  | nothing {here outer tokens} : Reads ending .nothing here outer tokens [] tokens
  | token {k here outer tokens x rest} (h : Taken ending (· == k) tokens x rest) :
      Reads ending (.token k) here outer tokens [.leaf x] rest
  | oneOf {ks here outer tokens x rest} (h : Taken ending ks.contains tokens x rest) :
      Reads ending (.oneOf ks) here outer tokens [.leaf x] rest
  | rule {r here outer tokens trees rest}
      (h : Reads ending r.phrase [] (here ++ outer) tokens trees rest) :
      Reads ending (.rule r) here outer tokens [.node r trees] rest
  | seq {a b here outer tokens xs middle ys rest}
      (ha : Reads ending a (b :: here) outer tokens xs middle)
      (hb : Reads ending b here outer middle ys rest) :
      Reads ending (.seq a b) here outer tokens (xs ++ ys) rest
  | skip {c a here outer tokens}
      (hs : checkStart ending (.option c a :: here) outer tokens = .ok ())
      (hc : c.decide ending a (here ++ outer) tokens = .ok false) :
      Reads ending (.option c a) here outer tokens [] tokens
  | take {c a here outer tokens trees rest}
      (hs : checkStart ending (.option c a :: here) outer tokens = .ok ())
      (hc : c.decide ending a (here ++ outer) tokens = .ok true)
      (ha : Reads ending a here outer tokens trees rest) :
      Reads ending (.option c a) here outer tokens trees rest
  | stop {c a here outer tokens}
      (hs : checkStart ending (.many c a :: here) outer tokens = .ok ())
      (hc : c.decide ending a (.many c a :: here ++ outer) tokens = .ok false) :
      Reads ending (.many c a) here outer tokens [] tokens
  | again {c a here outer tokens xs middle ys rest}
      (hs : checkStart ending (.many c a :: here) outer tokens = .ok ())
      (hc : c.decide ending a (.many c a :: here ++ outer) tokens = .ok true)
      (ha : Reads ending a (.many c a :: here) outer tokens xs middle)
      (hg : checkAgain ending (.many c a :: here) outer middle = .ok ())
      (hm : Reads ending (.many c a) here outer middle ys rest) :
      Reads ending (.many c a) here outer tokens (xs ++ ys) rest
  | idle {c a here outer tokens xs middle}
      (hc : c.decide ending a (.many c a :: here ++ outer) tokens = .ok true)
      (ha : Reads ending a (.many c a :: here) outer tokens xs middle)
      (hm : ¬middle.length < tokens.length) :
      Reads ending (.many c a) here outer tokens xs middle
  | first {c a b here outer tokens trees rest}
      (hs : checkStart ending (.either c a b :: here) outer tokens = .ok ())
      (hc : c.decide ending a (here ++ outer) tokens = .ok true)
      (ha : Reads ending a here outer tokens trees rest) :
      Reads ending (.either c a b) here outer tokens trees rest
  | second {c a b here outer tokens trees rest}
      (hs : checkStart ending (.either c a b :: here) outer tokens = .ok ())
      (hc : c.decide ending a (here ++ outer) tokens = .ok false)
      (hb : Reads ending b here outer tokens trees rest) :
      Reads ending (.either c a b) here outer tokens trees rest

theorem Ending.token_lexeme {ending : Ending} {t : Token} (h : ending.token = .ok t) :
    t.toLexeme = Lexeme.eof := by
  cases ending with
  | finish p =>
    simp only [token, Except.ok.injEq] at h
    rw [← h]
    rfl
  | fault e => simp [token] at h

theorem readToken_taken {ending : Ending} {form : Phrase} {accepts : Kind → Bool}
    {safe : form.advances = true → accepts .eof = false} {failure : Except SyntaxError SyntaxError}
    {tokens : List Token} {p : Parsed form tokens}
    (h : readToken ending form accepts safe failure tokens = .ok p) :
    ∃ x, p.trees = [.leaf x] ∧ Taken ending accepts tokens x p.rest := by
  have hfail : failure.bind .error ≠ (.ok p : Except SyntaxError (Parsed form tokens)) := by
    cases failure <;> simp [Except.bind]
  cases tokens with
  | nil =>
    simp only [readToken] at h
    split at h
    · simp at h
    · next t ht =>
      split at h
      · next ha =>
        simp only [Except.ok.injEq] at h
        subst h
        exact ⟨t.toLexeme, rfl, .finish ha ht⟩
      · exact absurd h hfail
  | cons t rest =>
    simp only [readToken] at h
    split at h
    · next ha =>
      split at h
      · simp at h
      · next u hu =>
        simp only [Except.ok.injEq] at h
        subst h
        exact ⟨t.toLexeme, rfl, .step ha hu⟩
    · exact absurd h hfail

theorem parse_reads (ending : Ending) (form : Phrase) (here outer : List Phrase)
    (tokens : List Token) (p : Parsed form tokens)
    (h : parse ending form here outer tokens = .ok p) :
    Reads ending form here outer tokens p.trees p.rest := by
  revert p h
  fun_induction parse ending form here outer tokens
  case case2 =>
    intro p h
    obtain ⟨x, hx, ht⟩ := readToken_taken h
    rw [hx]
    exact .token ht
  case case3 =>
    intro p h
    obtain ⟨x, hx, ht⟩ := readToken_taken h
    rw [hx]
    exact .oneOf ht
  -- what is left ends in an error, or in the trees of its parts
  all_goals
    intro p h
    cases h
  case case1 => exact .nothing
  case case5 hp ih => exact .rule (ih _ hp)
  case case8 hp q hq iha ihb => exact .seq (iha _ hp) (ihb _ hq)
  case case11 hs hc => exact .skip hs hc
  case case13 hs hc p hp ih => exact .take hs hc (ih _ hp)
  case case16 hs hc => exact .stop hs hc
  case case20 hs hc p hp _ hg _ q hq iha ihm => exact .again hs hc (iha _ hp) hg (ihm _ hq)
  case case21 hs hc p hp _ hg hm ih => exact .idle hc (ih _ hp) hm
  case case25 hs hc p hp ih => exact .first hs hc (ih _ hp)
  case case27 hs hc p hp ih => exact .second hs hc (ih _ hp)

inductive Spells : Phrase → List Tree → Prop
  | nothing : Spells .nothing []
  | token {k : Kind} {x : Lexeme} (h : x.kind = k) (hx : x.Spelt) : Spells (.token k) [.leaf x]
  | oneOf {ks : List Kind} {x : Lexeme} (h : x.kind ∈ ks) (hx : x.Spelt) : Spells (.oneOf ks) [.leaf x]
  | rule {r : Rule} {cs : List Tree} (h : Spells r.phrase cs) : Spells (.rule r) [.node r cs]
  | seq {a b : Phrase} {xs ys : List Tree} (ha : Spells a xs) (hb : Spells b ys) :
      Spells (.seq a b) (xs ++ ys)
  | none {c : Choice} {a : Phrase} : Spells (.option c a) []
  | some {c : Choice} {a : Phrase} {xs : List Tree} (h : Spells a xs) : Spells (.option c a) xs
  | nil {c : Choice} {a : Phrase} : Spells (.many c a) []
  | cons {c : Choice} {a : Phrase} {xs ys : List Tree} (ha : Spells a xs)
      (hm : Spells (.many c a) ys) : Spells (.many c a) (xs ++ ys)
  | left {c : Choice} {a b : Phrase} {xs : List Tree} (h : Spells a xs) : Spells (.either c a b) xs
  | right {c : Choice} {a b : Phrase} {xs : List Tree} (h : Spells b xs) : Spells (.either c a b) xs

theorem Taken.kind {ending : Ending} {accepts : Kind → Bool} {tokens rest : List Token} {x : Lexeme}
    (h : Taken ending accepts tokens x rest) : accepts x.kind = true := by
  cases h with
  | step ha hl => exact ha
  | finish ha ht =>
    rw [Ending.token_lexeme ht]
    exact ha

namespace Tree

theorem leavesAll_append (xs ys : List Tree) : leavesAll (xs ++ ys) = leavesAll xs ++ leavesAll ys := by
  induction xs with
  | nil => rfl
  | cons t xs ih => simp [leavesAll, ih]

end Tree

def Covers (tokens : List Token) (trees : List Tree) (rest : List Token) : Prop :=
  ∃ (used : List Token) (n : Nat), tokens = used ++ rest ∧ (n ≠ 0 → rest = []) ∧
    Tree.leavesAll trees = used.map Token.toLexeme ++ List.replicate n Lexeme.eof

theorem Covers.nil (tokens : List Token) : Covers tokens [] tokens :=
  ⟨[], 0, rfl, by simp, rfl⟩

theorem Covers.append {tokens middle rest : List Token} {xs ys : List Tree}
    (hx : Covers tokens xs middle) (hy : Covers middle ys rest) : Covers tokens (xs ++ ys) rest := by
  obtain ⟨used, n, rfl, hn, hu⟩ := hx
  obtain ⟨more, m, rfl, hm, hv⟩ := hy
  refine ⟨used ++ more, n + m, by simp, ?_, ?_⟩
  · intro hnm
    by_cases h : n = 0
    · exact hm (by omega)
    · exact (List.append_eq_nil_iff.mp (hn h)).2
  · rw [Tree.leavesAll_append, hu, hv]
    by_cases h : n = 0
    · simp [h]
    · -- behind the end of the text there is nothing more to read
      rw [(List.append_eq_nil_iff.mp (hn h)).1]
      simp [List.replicate_append_replicate]

theorem Taken.covers {ending : Ending} {accepts : Kind → Bool} {tokens rest : List Token} {x : Lexeme}
    (h : Taken ending accepts tokens x rest) : Covers tokens [.leaf x] rest := by
  cases h with
  | @step t u rest ha hl => exact ⟨[t], 0, rfl, by simp, rfl⟩
  | finish ha ht =>
    rw [Ending.token_lexeme ht]
    exact ⟨[], 1, rfl, by simp, rfl⟩

theorem Reads.covers {ending : Ending} {form : Phrase} {here outer : List Phrase}
    {tokens rest : List Token} {trees : List Tree}
    (h : Reads ending form here outer tokens trees rest) : Covers tokens trees rest := by
  induction h with
  | nothing => exact .nil _
  | token h => exact h.covers
  | oneOf h => exact h.covers
  | rule h ih =>
    obtain ⟨used, n, ht, hn, hu⟩ := ih
    exact ⟨used, n, ht, hn, by simpa [Tree.leavesAll, Tree.leaves] using hu⟩
  | seq ha hb iha ihb => exact iha.append ihb
  | skip hs hc => exact .nil _
  | take hs hc ha ih => exact ih
  | stop hs hc => exact .nil _
  | again hs hc ha hg hm iha ihm => exact iha.append ihm
  | idle hc ha hm ih => exact ih
  | first hs hc ha ih => exact ih
  | second hs hc hb ih => exact ih

theorem Reads.rest_subset {ending : Ending} {form : Phrase} {here outer : List Phrase}
    {tokens rest : List Token} {trees : List Tree}
    (h : Reads ending form here outer tokens trees rest) : rest ⊆ tokens := by
  obtain ⟨used, n, rfl, -, -⟩ := h.covers
  exact List.subset_append_right used rest

theorem Taken.spelt {ending : Ending} {accepts : Kind → Bool} {tokens rest : List Token} {x : Lexeme}
    (h : Taken ending accepts tokens x rest) (ht : ∀ t ∈ tokens, t.toLexeme.Spelt) : x.Spelt := by
  cases h with
  | step ha hl => exact ht _ (by simp)
  | finish ha hf =>
    rw [Ending.token_lexeme hf]
    exact .eof

theorem Reads.spells {ending : Ending} {form : Phrase} {here outer : List Phrase}
    {tokens rest : List Token} {trees : List Tree}
    (h : Reads ending form here outer tokens trees rest) (ht : ∀ t ∈ tokens, t.toLexeme.Spelt) :
    Spells form trees := by
  induction h with
  | nothing => exact .nothing
  | token h => exact .token (by simpa using h.kind) (h.spelt ht)
  | oneOf h => exact .oneOf (by simpa using h.kind) (h.spelt ht)
  | rule h ih => exact .rule (ih ht)
  | seq ha hb iha ihb => exact .seq (iha ht) (ihb fun t hm => ht t (ha.rest_subset hm))
  | skip hs hc => exact .none
  | take hs hc ha ih => exact .some (ih ht)
  | stop hs hc => exact .nil
  | again hs hc ha hg hm iha ihm => exact .cons (iha ht) (ihm fun t hm => ht t (ha.rest_subset hm))
  | @idle c a here outer tokens xs middle hc ha hm ih =>
    rw [← List.append_nil xs]
    exact .cons (ih ht) .nil
  | first hs hc ha ih => exact .left (ih ht)
  | second hs hc hb ih => exact .right (ih ht)

theorem parseText_reads {start : Rule} {text : String} {d : Derived}
    (h : parseText start text = .ok d) :
    ∃ trees rest, d.tree = .node start trees ∧
      Reads (Lexed.ofString text).ending start.phrase [] [] (Lexed.ofString text).tokens trees rest := by
  simp only [parseText, Lexed.parse, bind, Except.bind] at h
  split at h
  · simp at h
  · split at h
    · simp at h
    · next p hp =>
      simp only [pure, Except.pure, Except.ok.injEq] at h
      subst h
      exact ⟨p.trees, p.rest, rfl, parse_reads _ _ _ _ _ p hp⟩

theorem parseText_spells {start : Rule} {text : String} {d : Derived}
    (h : parseText start text = .ok d) : Spells (.rule start) [d.tree] := by
  obtain ⟨trees, rest, hd, hr⟩ := parseText_reads h
  rw [hd]
  exact .rule (hr.spells (Lexed.ofString_spelt text))

end CompiScript
