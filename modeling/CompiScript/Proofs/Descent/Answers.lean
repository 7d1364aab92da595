import CompiScript.Proofs.Descent.Requests
import CompiScript.Proofs.Foresight.Completion

namespace CompiScript

namespace Request

variable {ending : Ending} {q q' : Request} {trees : List Tree} {rest : List Token}

section Equations

variable {c : Choice} {a b : Phrase} {here outer : List Phrase} {tokens : List Token}

theorem answer_seq : answer ending ⟨.seq a b, here, outer, tokens⟩ =
    round ending (answer ending) ⟨.seq a b, here, outer, tokens⟩ := by
  rw [answer, parse.eq_def]
  simp only [round, answer]
  cases parse ending a (b :: here) outer tokens with
  | error e => rfl
  | ok p =>
    simp only [Except.map, Parsed.read, bind, Except.bind]
    cases parse ending b here outer p.rest <;> rfl

theorem answer_option : answer ending ⟨.option c a, here, outer, tokens⟩ =
    round ending (answer ending) ⟨.option c a, here, outer, tokens⟩ := by
  rw [answer, parse.eq_def]
  simp only [round, answer]
  cases checkStart ending (.option c a :: here) outer tokens with
  | error e => rfl
  | ok _ =>
    simp only [bind, Except.bind]
    rcases c.decide ending a (here ++ outer) tokens with e | entered | entered
    · rfl
    · rfl
    · simp only
      cases parse ending a here outer tokens <;> rfl

theorem answer_either : answer ending ⟨.either c a b, here, outer, tokens⟩ =
    round ending (answer ending) ⟨.either c a b, here, outer, tokens⟩ := by
  rw [answer, parse.eq_def]
  simp only [round, answer]
  cases checkStart ending (.either c a b :: here) outer tokens with
  | error e => rfl
  | ok _ =>
    simp only [bind, Except.bind]
    rcases c.decide ending a (here ++ outer) tokens with e | entered | entered
    · rfl
    · simp only
      cases parse ending b here outer tokens <;> rfl
    · simp only
      cases parse ending a here outer tokens <;> rfl

theorem answer_many (ha : a.advances = true) : answer ending ⟨.many c a, here, outer, tokens⟩ =
    round ending (answer ending) ⟨.many c a, here, outer, tokens⟩ := by
  rw [answer, parse.eq_def]
  simp only [round, answer]
  cases checkStart ending (.many c a :: here) outer tokens with
  | error e => rfl
  | ok _ =>
    simp only [bind, Except.bind]
    rcases c.decide ending a (.many c a :: here ++ outer) tokens with e | entered | entered
    · rfl
    · rfl
    · simp only
      cases parse ending a (.many c a :: here) outer tokens with
      | error e => rfl
      | ok p =>
        -- Each turn reads a token, so that the reader always goes on.
        simp only [dif_pos (p.rest_lt ha), Except.map, Parsed.read]
        cases checkAgain ending (.many c a :: here) outer p.rest with
        | error e => rfl
        | ok _ =>
          simp only
          cases parse ending (.many c a) here outer p.rest <;> rfl

end Equations

theorem answer_eq_round (hq : q.form.Progressive) : q.answer ending = q.round ending (answer ending) := by
  obtain ⟨form, here, outer, tokens⟩ := q
  cases form with
  | nothing =>
    rw [answer, parse.eq_def]
    rfl
  | token k =>
    rw [answer, parse.eq_def]
    exact readToken_read
  | oneOf ks =>
    rw [answer, parse.eq_def]
    exact readToken_read
  | rule r =>
    rw [answer, parse.eq_def]
    simp only [round, answer]
    cases parse ending r.phrase [] (here ++ outer) tokens <;> rfl
  | seq a b => exact answer_seq
  | option c a => exact answer_option
  | many c a => exact answer_many (hq (c, a) List.mem_cons_self)
  | either c a b => exact answer_either

theorem round_congr {ask : Request → Answer} (h : ∀ q', q.Makes ending q' → ask q' = answer ending q') :
    q.round ending ask = q.round ending (answer ending) := by
  obtain ⟨form, here, outer, tokens⟩ := q
  cases form with
  | rule r => simp only [round, h _ .rule]
  | seq a b =>
    simp only [round, h _ .first]
    rcases hp : answer ending ⟨a, b :: here, outer, tokens⟩ with e | ⟨xs, middle⟩
    · rfl
    · simp only [bind, Except.bind, h _ (.second hp)]
  | option c a =>
    simp only [round]
    cases hs : checkStart ending (.option c a :: here) outer tokens with
    | error e => rfl
    | ok _ =>
      rcases hc : c.decide ending a (here ++ outer) tokens with e | entered | entered
      · rfl
      · rfl
      · simp only [bind, Except.bind, h _ (.option hs hc)]
  | many c a =>
    simp only [round]
    cases hs : checkStart ending (.many c a :: here) outer tokens with
    | error e => rfl
    | ok _ =>
      rcases hc : c.decide ending a (.many c a :: here ++ outer) tokens with e | entered | entered
      · rfl
      · rfl
      · simp only [bind, Except.bind, h _ (.turn hs hc)]
        rcases hp : answer ending ⟨a, .many c a :: here, outer, tokens⟩ with e | ⟨xs, middle⟩
        · rfl
        · cases hg : checkAgain ending (.many c a :: here) outer middle with
          | error e => simp only [hg]
          | ok _ => simp only [hg, h _ (.again hs hc hp hg)]
  | either c a b =>
    simp only [round]
    cases hs : checkStart ending (.either c a b :: here) outer tokens with
    | error e => rfl
    | ok _ =>
      rcases hc : c.decide ending a (here ++ outer) tokens with e | entered | entered
      · rfl
      · simp only [bind, Except.bind, h _ (.right hs hc)]
      · simp only [bind, Except.bind, h _ (.left hs hc)]
  | _ => rfl

theorem eq_answer_of_round {ask : Request → Answer}
    (hask : ∀ q : Request, q.form.Progressive → ask q = q.round ending ask) (q : Request) (hq : q.form.Progressive) :
    ask q = q.answer ending := by
  induction hn : q.size using Nat.strongRecOn generalizing q with
  | ind n ih =>
    rw [hask q hq, answer_eq_round hq]
    exact round_congr fun q' hmakes => ih q'.size (hn ▸ hmakes.size_lt hq) q' (hmakes.progressive hq) rfl

theorem progressive_rule (r : Rule) (here outer : List Phrase) (tokens : List Token) :
    Phrase.Progressive (Request.form ⟨.rule r, here, outer, tokens⟩) :=
  nofun

theorem rank_lt_of_transGen {r r' : Rule} {here outer here' outer' : List Phrase} {tokens : List Token}
    (h : Relation.TransGen (Makes ending) ⟨.rule r, here, outer, tokens⟩ ⟨.rule r', here', outer', tokens⟩) :
    r'.rank < r.rank := by
  -- With as many tokens left, the weights alone tell the sizes of the requests apart.
  have hlt := (size_lt_of_transGen h (progressive_rule r here outer tokens)).1
  simp only [size, Phrase.weight] at hlt
  omega

theorem not_decide_declaration {after : List Phrase} :
    Choice.byToken.decide ending (.rule .declaration) after [] ≠ .ok true := by
  intro h
  simp only [Choice.decide] at h
  cases ht : look ending [] 0 with
  | error e => rw [ht] at h; cases h
  | ok t =>
    rw [ht, Except.map, look_nil_kind ht] at h
    exact absurd (Except.ok.inj h) (by decide)

theorem program_of_reads {here outer : List Phrase} {tokens : List Token}
    (h : Reads ending (.rule .program) here outer tokens trees rest) (hsame : tokens = rest) :
    tokens = [] ∧ trees = [.node .program [.leaf .eof]] := by
  cases h with
  | @rule _ _ _ _ cs _ h =>
    have hrow : Reads ending (.seq (.many .byToken (.rule .declaration)) (.token .eof)) [] (here ++ outer) tokens cs rest :=
      h
    cases hrow with
    | seq ha hb =>
      cases hb with
      | token hend =>
        cases hend with
        | step hkind hlook =>
          obtain ⟨used, -, hused, -, -⟩ := ha.covers
          have hlength := congrArg List.length (hused.symm.trans hsame)
          simp only [List.length_append, List.length_cons] at hlength
          omega
        | finish hkind htoken =>
          subst hsame
          rw [Ending.token_lexeme htoken]
          cases ha with
          | stop _ _ => exact ⟨rfl, rfl⟩
          | again _ hc _ _ _ => exact absurd hc not_decide_declaration
          | idle hc _ _ => exact absurd hc not_decide_declaration

theorem program_consumes {here outer : List Phrase} {tokens : List Token}
    (h : answer ending ⟨.rule .program, here, outer, tokens⟩ = .ok (trees, rest)) :
    (∃ t used, tokens = t :: used ++ rest) ∨ tokens = [] ∧ trees = [.node .program [.leaf .eof]] := by
  obtain ⟨p, hp, rfl, rfl⟩ := answer_eq_ok h
  have hreads := parse_reads _ _ _ _ _ p hp
  obtain ⟨used, -, hused, -, -⟩ := hreads.covers
  cases used with
  | cons t used => exact .inl ⟨t, used, hused⟩
  | nil => exact .inr (program_of_reads hreads hused)

end Request

section Lookahead

theorem Rule.leads_depth_add (n : Nat) : leads (depth + n) = starts := by
  induction n with
  | zero => rfl
  | succ n ih =>
    funext r k
    rw [← Nat.add_assoc, leads, ih]
    exact r.starts_phrase k

theorem Ahead.readRule_congr {m n : Nat} (h : readRule m = readRule n) : readRule (m + 1) = readRule (n + 1) := by
  funext r k
  by_cases hr : r = .assignment
  · subst hr
    by_cases hidentifier : k = .identifier
    · subst hidentifier
      rfl
    · by_cases hfun : k = .funWord
      · subst hfun
        simp only [readRule, h]
      · rw [readRule_assignment hidentifier hfun, readRule_assignment hidentifier hfun, h]
  · by_cases hdeclared : r = .declaration ∧ k = .funWord
    · obtain ⟨rfl, rfl⟩ := hdeclared
      rfl
    · have hother := Decidable.not_and_iff_or_not.mp hdeclared
      rw [readRule_of_ne hother hr, readRule_of_ne hother hr, h]

theorem Ahead.readRule_depth_add (n : Nat) : readRule (Rule.depth + n) = readRule Rule.depth := by
  have hstable : readRule (Rule.depth + 1) = readRule Rule.depth := Rule.eq_of_all (by decide +kernel)
  induction n with
  | zero => rfl
  | succ n ih => exact (readRule_congr ih).trans hstable

end Lookahead

theorem Lexed.parse_eq (lexed : Lexed) (start : Rule) :
    lexed.parse start = do
      let _ ← look lexed.ending lexed.tokens 0
      let (trees, rest) ← Request.answer lexed.ending ⟨start.phrase, [], [], lexed.tokens⟩
      return ⟨.node start trees, lexed.tokens.length - rest.length⟩ := by
  simp only [Lexed.parse, Request.answer]
  cases look lexed.ending lexed.tokens 0 with
  | error e => rfl
  | ok _ => cases CompiScript.parse lexed.ending start.phrase [] [] lexed.tokens <;> rfl

namespace Request

/-- Reading makes progress and ends, whatever the tokens and what is behind them. A rule that is read has read a token,
except for a program that is nothing but the end of the text; so has every turn of a repetition. Before a token is read, no
rule is entered from within itself. Hence the requests made for a rule come to an end, and the plain recursion, which has
no bound of any kind, has one solution, the answers of the reader; nor is there more to be seen behind the number of
rules through which the reader looks ahead. -/
theorem reading_progresses_and_ends (ending : Ending) (tokens : List Token) :
    (∀ r here outer, r ≠ .program → Consumes ending ⟨.rule r, here, outer, tokens⟩) ∧
    (∀ here outer trees rest, answer ending ⟨.rule .program, here, outer, tokens⟩ = .ok (trees, rest) →
      (∃ t used, tokens = t :: used ++ rest) ∨ tokens = [] ∧ trees = [.node .program [.leaf .eof]]) ∧
    (∀ r : Rule, r.phrase.loops ≠ [] ↔ r ∈ [.program, .block, .classDecl, .logicOr, .logicAnd, .equality, .comparison,
      .term, .factor, .call, .array, .parameters, .arguments]) ∧
    (∀ (r : Rule) c a here outer, (c, a) ∈ r.phrase.loops →
      Consumes ending ⟨a, .many c a :: here, outer, tokens⟩) ∧
    (∀ r r' here outer here' outer',
      Relation.TransGen (Makes ending) ⟨.rule r, here, outer, tokens⟩ ⟨.rule r', here', outer', tokens⟩ → r' ≠ r) ∧
    (∀ r here outer, Acc (fun q' q : Request => q.Makes ending q') ⟨.rule r, here, outer, tokens⟩) ∧
    (∀ q : Request, q.form.Progressive → q.answer ending = q.round ending (answer ending)) ∧
    (∀ ask, (∀ q : Request, q.form.Progressive → ask q = q.round ending ask) → ∀ r here outer,
      ask ⟨.rule r, here, outer, tokens⟩ = answer ending ⟨.rule r, here, outer, tokens⟩) ∧
    (∀ start, Lexed.parse ⟨tokens, ending⟩ start = do
      let _ ← look ending tokens 0
      let (trees, rest) ← answer ending ⟨start.phrase, [], [], tokens⟩
      return ⟨.node start trees, tokens.length - rest.length⟩) ∧
    (∀ n, Rule.leads (Rule.depth + n) = Rule.starts) ∧
    ∀ n, Ahead.readRule (Rule.depth + n) = Ahead.readRule Rule.depth := by
  refine ⟨?_, fun _ _ _ _ => program_consumes, Rule.loops_ne_nil_iff, ?_, ?_, ?_, fun _ => answer_eq_round, ?_,
    Lexed.parse_eq ⟨tokens, ending⟩, Rule.leads_depth_add, Ahead.readRule_depth_add⟩
  · intro r here outer hr
    exact consumes_of_advances (bne_iff_ne.mpr hr)
  · intro r c a here outer hloop
    exact consumes_of_advances (r.phrase_progressive (c, a) hloop)
  · rintro r r' here outer here' outer' h rfl
    exact Nat.lt_irrefl _ (rank_lt_of_transGen h)
  · exact fun r here outer => acc_of_progressive _ (progressive_rule r here outer tokens)
  · exact fun ask hask r here outer => eq_answer_of_round hask _ (progressive_rule r here outer tokens)

theorem reading_progresses_and_ends_unbalanced :
    let lexed := Lexed.ofString "{ a; } )"
    (answer lexed.ending ⟨.rule .program, [], [], lexed.tokens⟩).isOk = false ∧
    (answer lexed.ending ⟨.rule .block, [], [], lexed.tokens⟩).isOk = true ∧
    Consumes lexed.ending ⟨.rule .block, [], [], lexed.tokens⟩ ∧
    Consumes lexed.ending ⟨.rule .declaration, [.many .byToken (.rule .declaration)], [], lexed.tokens⟩ ∧
    Relation.TransGen (Makes lexed.ending) ⟨.rule .term, [], [], lexed.tokens⟩
      ⟨.rule .factor, [.repeated [.oneOf [.minus, .plus], .rule .factor]], [], lexed.tokens⟩ ∧
    Rule.factor ≠ Rule.term ∧
    ∃ rest, answer (.finish ⟨1, 0, 0⟩) ⟨.rule .program, [], [], []⟩ = .ok ([.node .program [.leaf .eof]], rest) := by
  intro lexed
  obtain ⟨hrules, -, -, hloops, hbelow, -⟩ := reading_progresses_and_ends lexed.ending lexed.tokens
  have hentered : Relation.TransGen (Makes lexed.ending) ⟨.rule .term, [], [], lexed.tokens⟩
      ⟨.rule .factor, [.repeated [.oneOf [.minus, .plus], .rule .factor]], [], lexed.tokens⟩ :=
    .tail (.single .rule) .first
  have hempty : (answer (.finish ⟨1, 0, 0⟩) ⟨.rule .program, [], [], []⟩).isOk = true := by
    decide +kernel
  refine ⟨by decide +kernel, by decide +kernel, hrules .block [] [] (by decide),
    hloops .block .byToken (.rule .declaration) [] [] (by decide), hentered, hbelow _ _ _ _ _ _ hentered, ?_⟩
  rcases hanswer : answer (.finish ⟨1, 0, 0⟩) ⟨.rule .program, [], [], []⟩ with e | ⟨trees, rest⟩
  · rw [hanswer] at hempty
    cases hempty
  · obtain ⟨-, hprogram, -⟩ := reading_progresses_and_ends (.finish ⟨1, 0, 0⟩) []
    rcases hprogram [] [] trees rest hanswer with ⟨t, used, hused⟩ | ⟨-, rfl⟩
    · cases hused
    · exact ⟨rest, rfl⟩

end Request

end CompiScript
