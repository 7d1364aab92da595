import CompiScript.Proofs.Foresight.Items

/-!
Why reading ends. What the reader is asked to read, and what it asks in turn, is laid open here, and with it the reader as
a plain recursion, which goes round a repetition without a look at the number of tokens left. Main statement: every rule
and every turn of a repetition reads a token, a rule is not entered again before one is read, and so the recursion ends on
all tokens, with what the reader answers.
-/

namespace CompiScript

namespace Phrase

def loops : Phrase → List (Choice × Phrase)
  | seq a b => a.loops ++ b.loops
  | option _ a => a.loops
  | many c a => (c, a) :: a.loops
  | either _ a b => a.loops ++ b.loops
  | _ => []

def Progressive (p : Phrase) : Prop :=
  ∀ l ∈ p.loops, l.2.advances = true

end Phrase

theorem Rule.phrase_progressive (r : Rule) : r.phrase.Progressive := by
  have hall : r.phrase.loops.all (fun l => l.2.advances) = true := by
    cases r <;> decide
  exact List.all_eq_true.mp hall

theorem Rule.loops_ne_nil_iff (r : Rule) :
    r.phrase.loops ≠ [] ↔ r ∈ [program, block, classDecl, logicOr, logicAnd, equality, comparison, term, factor, call,
      array, parameters, arguments] := by
  cases r <;> decide

def Parsed.read {form : Phrase} {tokens : List Token} (p : Parsed form tokens) : List Tree × List Token :=
  (p.trees, p.rest)

abbrev Answer := Except SyntaxError (List Tree × List Token)

structure Request where
  form : Phrase
  here : List Phrase
  outer : List Phrase
  tokens : List Token

namespace Request

def answer (ending : Ending) (q : Request) : Answer :=
  (parse ending q.form q.here q.outer q.tokens).map Parsed.read

def take (ending : Ending) (accepts : Kind → Bool) (failure : Except SyntaxError SyntaxError) (tokens : List Token) :
    Answer :=
  (readToken ending .nothing accepts nofun failure tokens).map Parsed.read

/-- The reader as a plain recursion: what is answered to a request, if `ask` answers those that are made for it. -/
def round (ending : Ending) (ask : Request → Answer) : Request → Answer
  | ⟨.nothing, _, _, tokens⟩ => return ([], tokens)
  | ⟨.token k, here, outer, tokens⟩ => take ending (· == k) (unexpected ending k (here ++ outer) tokens) tokens
  | ⟨.oneOf ks, _, _, tokens⟩ =>
    take ending ks.contains ((look ending tokens 0).map fun t => .mismatched t ks) tokens
  | ⟨.rule r, here, outer, tokens⟩ => do
    let (trees, rest) ← ask ⟨r.phrase, [], here ++ outer, tokens⟩
    return ([.node r trees], rest)
  | ⟨.seq a b, here, outer, tokens⟩ => do
    let (xs, middle) ← ask ⟨a, b :: here, outer, tokens⟩
    let (ys, rest) ← ask ⟨b, here, outer, middle⟩
    return (xs ++ ys, rest)
  | ⟨.option c a, here, outer, tokens⟩ => do
    checkStart ending (.option c a :: here) outer tokens
    match ← c.decide ending a (here ++ outer) tokens with
    | true => ask ⟨a, here, outer, tokens⟩
    | false => return ([], tokens)
  | ⟨.many c a, here, outer, tokens⟩ => do
    checkStart ending (.many c a :: here) outer tokens
    match ← c.decide ending a (.many c a :: here ++ outer) tokens with
    | true =>
      let (xs, middle) ← ask ⟨a, .many c a :: here, outer, tokens⟩
      checkAgain ending (.many c a :: here) outer middle
      let (ys, rest) ← ask ⟨.many c a, here, outer, middle⟩
      return (xs ++ ys, rest)
    | false => return ([], tokens)
  | ⟨.either c a b, here, outer, tokens⟩ => do
    checkStart ending (.either c a b :: here) outer tokens
    match ← c.decide ending a (here ++ outer) tokens with
    | true => ask ⟨a, here, outer, tokens⟩
    | false => ask ⟨b, here, outer, tokens⟩

inductive Makes (ending : Ending) : Request → Request → Prop
  | rule {r here outer tokens} : Makes ending ⟨.rule r, here, outer, tokens⟩ ⟨r.phrase, [], here ++ outer, tokens⟩
  | first {a b here outer tokens} : Makes ending ⟨.seq a b, here, outer, tokens⟩ ⟨a, b :: here, outer, tokens⟩
  | second {a b here outer tokens trees rest} (h : answer ending ⟨a, b :: here, outer, tokens⟩ = .ok (trees, rest)) :
      Makes ending ⟨.seq a b, here, outer, tokens⟩ ⟨b, here, outer, rest⟩
  | option {c a here outer tokens} (hs : checkStart ending (.option c a :: here) outer tokens = .ok ())
      (hc : c.decide ending a (here ++ outer) tokens = .ok true) :
      Makes ending ⟨.option c a, here, outer, tokens⟩ ⟨a, here, outer, tokens⟩
  | turn {c a here outer tokens} (hs : checkStart ending (.many c a :: here) outer tokens = .ok ())
      (hc : c.decide ending a (.many c a :: here ++ outer) tokens = .ok true) :
      Makes ending ⟨.many c a, here, outer, tokens⟩ ⟨a, .many c a :: here, outer, tokens⟩
  | again {c a here outer tokens trees rest} (hs : checkStart ending (.many c a :: here) outer tokens = .ok ())
      (hc : c.decide ending a (.many c a :: here ++ outer) tokens = .ok true)
      (h : answer ending ⟨a, .many c a :: here, outer, tokens⟩ = .ok (trees, rest))
      (hg : checkAgain ending (.many c a :: here) outer rest = .ok ()) :
      Makes ending ⟨.many c a, here, outer, tokens⟩ ⟨.many c a, here, outer, rest⟩
  | left {c a b here outer tokens} (hs : checkStart ending (.either c a b :: here) outer tokens = .ok ())
      (hc : c.decide ending a (here ++ outer) tokens = .ok true) :
      Makes ending ⟨.either c a b, here, outer, tokens⟩ ⟨a, here, outer, tokens⟩
  | right {c a b here outer tokens} (hs : checkStart ending (.either c a b :: here) outer tokens = .ok ())
      (hc : c.decide ending a (here ++ outer) tokens = .ok false) :
      Makes ending ⟨.either c a b, here, outer, tokens⟩ ⟨b, here, outer, tokens⟩

def Consumes (ending : Ending) (q : Request) : Prop :=
  ∀ trees rest, q.answer ending = .ok (trees, rest) → ∃ t used, q.tokens = t :: used ++ rest

variable {ending : Ending} {q q' : Request} {trees : List Tree} {rest : List Token}

theorem answer_eq_ok (h : q.answer ending = .ok (trees, rest)) :
    ∃ p, parse ending q.form q.here q.outer q.tokens = .ok p ∧ p.trees = trees ∧ p.rest = rest := by
  rw [answer] at h
  cases hp : parse ending q.form q.here q.outer q.tokens with
  | error e => rw [hp] at h; cases h
  | ok p => rw [hp] at h; cases h; exact ⟨p, rfl, rfl, rfl⟩

theorem length_le_of_answer (h : q.answer ending = .ok (trees, rest)) : rest.length ≤ q.tokens.length := by
  obtain ⟨p, -, -, rfl⟩ := answer_eq_ok h
  exact p.rest_le

theorem length_lt_of_answer (hq : q.form.advances = true) (h : q.answer ending = .ok (trees, rest)) :
    rest.length < q.tokens.length := by
  obtain ⟨p, -, -, rfl⟩ := answer_eq_ok h
  exact p.rest_lt hq

theorem consumes_of_advances (hq : q.form.advances = true) : q.Consumes ending := by
  intro trees rest h
  have hlt := length_lt_of_answer hq h
  obtain ⟨p, hp, rfl, rfl⟩ := answer_eq_ok h
  obtain ⟨used, -, hused, -, -⟩ := (parse_reads _ _ _ _ _ p hp).covers
  cases used with
  | nil => exact absurd (congrArg List.length hused).symm (Nat.ne_of_lt hlt)
  | cons t used => exact ⟨t, used, hused⟩

def size (q : Request) : Nat :=
  q.tokens.length * Phrase.load + q.form.weight

theorem Makes.size_lt (h : q.Makes ending q') (hq : q.form.Progressive) : q'.size < q.size := by
  have hload : Phrase.load = 200 := rfl
  cases h with
  | @rule r here outer tokens =>
    have hrank := r.weight_phrase_lt_rank
    simp only [size, Phrase.weight]
    omega
  | @second a b here outer tokens trees rest h =>
    have hle := length_le_of_answer h
    simp only at hle
    simp only [size, Phrase.weight, hload]
    by_cases ha : a.advances = true
    · have hlt := length_lt_of_answer ha h
      simp only at hlt
      simp only [ha, if_true]
      omega
    · simp only [ha, Bool.false_eq_true, if_false]
      omega
  | @again c a here outer tokens trees rest hs hc h hg =>
    have hlt := length_lt_of_answer (hq (c, a) List.mem_cons_self) h
    simp only at hlt
    simp only [size, Phrase.weight, hload]
    omega
  | _ =>
    simp only [size, Phrase.weight]
    omega

theorem Makes.progressive (h : q.Makes ending q') (hq : q.form.Progressive) : q'.form.Progressive := by
  cases h with
  | @rule r => exact r.phrase_progressive
  | first => exact fun l hl => hq l (List.mem_append_left _ hl)
  | second => exact fun l hl => hq l (List.mem_append_right _ hl)
  | option => exact hq
  | turn => exact fun l hl => hq l (List.mem_cons_of_mem _ hl)
  | again => exact hq
  | left => exact fun l hl => hq l (List.mem_append_left _ hl)
  | right => exact fun l hl => hq l (List.mem_append_right _ hl)

theorem acc_of_progressive (q : Request) (hq : q.form.Progressive) : Acc (fun q' q => q.Makes ending q') q := by
  induction hn : q.size using Nat.strongRecOn generalizing q with
  | ind n ih =>
    refine ⟨q, fun q' hmakes => ?_⟩
    exact ih q'.size (hn ▸ hmakes.size_lt hq) q' (hmakes.progressive hq) rfl

theorem size_lt_of_transGen (h : Relation.TransGen (Makes ending) q q') (hq : q.form.Progressive) :
    q'.size < q.size ∧ q'.form.Progressive := by
  induction h with
  | single h => exact ⟨h.size_lt hq, h.progressive hq⟩
  | tail _ h ih => exact ⟨Nat.lt_trans (h.size_lt ih.2) ih.1, h.progressive ih.2⟩

theorem readToken_read {form : Phrase} {accepts : Kind → Bool} {safe : form.advances = true → accepts .eof = false}
    {failure : Except SyntaxError SyntaxError} {tokens : List Token} :
    (readToken ending form accepts safe failure tokens).map Parsed.read = take ending accepts failure tokens := by
  cases tokens with
  | nil =>
    simp only [take, readToken]
    cases ending.token with
    | error e => rfl
    | ok t =>
      by_cases heof : accepts .eof = true
      · simp only [dif_pos heof]
        rfl
      · simp only [dif_neg heof]
        cases failure <;> rfl
  | cons t rest =>
    simp only [take, readToken]
    by_cases ht : accepts t.kind = true
    · simp only [if_pos ht]
      cases look ending rest 0 <;> rfl
    · simp only [if_neg ht]
      cases failure <;> rfl

end Request

end CompiScript
