import CompiScript.Grammar.Progress
import CompiScript.Parser.Choice
import CompiScript.Tree.Basic

/-!
The reader: it follows the phrases of the grammar through the tokens, decides at each choice, and
stops at the first error. `here` is what is left of the rule that is being read, `outer` what is
left of the rules around it; both are needed to say what was expected.
-/

namespace CompiScript

structure Parsed (form : Phrase) (tokens : List Token) where
  trees : List Tree
  rest : List Token
  rest_le : rest.length ≤ tokens.length
  rest_lt : form.advances = true → rest.length < tokens.length

namespace Parsed

def empty {form : Phrase} (tokens : List Token) (h : form.advances = false) : Parsed form tokens :=
  ⟨[], tokens, Nat.le_refl _, fun ha => by simp [h] at ha⟩

end Parsed

/-- Steps over the next token if `accepts` holds of its kind, and reads the one behind it. The end
of the text is not stepped over. -/
def readToken (ending : Ending) (form : Phrase) (accepts : Kind → Bool)
    (safe : form.advances = true → accepts .eof = false)
    (failure : Except SyntaxError SyntaxError) (tokens : List Token) :
    Except SyntaxError (Parsed form tokens) :=
  match tokens with
  | [] =>
    match ending.token with
    | .error e => .error e
    | .ok t =>
      if h : accepts .eof = true then
        .ok ⟨[.leaf t.toLexeme], [], Nat.le_refl _, fun ha => by simp [safe ha] at h⟩
      else failure.bind .error
  | t :: rest =>
    if accepts t.kind then
      match look ending rest 0 with
      | .error e => .error e
      | .ok _ => .ok ⟨[.leaf t.toLexeme], rest, by simp, fun _ => by simp⟩
    else failure.bind .error

def parse (ending : Ending) (form : Phrase) (here outer : List Phrase) (tokens : List Token) :
    Except SyntaxError (Parsed form tokens) :=
  match form with
  | .nothing => .ok (Parsed.empty tokens rfl)
  | .token k =>
    readToken ending (.token k) (· == k) (fun h => by
        simp only [Phrase.advances, bne_iff_ne] at h
        exact beq_eq_false_iff_ne.mpr (Ne.symm h))
      (unexpected ending k (here ++ outer) tokens) tokens
  | .oneOf ks =>
    readToken ending (.oneOf ks) ks.contains (fun h => by simpa [Phrase.advances] using h)
      ((look ending tokens 0).map fun t => .mismatched t ks) tokens
  | .rule r =>
    match parse ending r.phrase [] (here ++ outer) tokens with
    | .error e => .error e
    | .ok p =>
      .ok ⟨[.node r p.trees], p.rest, p.rest_le, fun h =>
        p.rest_lt (r.phrase_advances (by simpa [Phrase.advances] using h))⟩
  | .seq a b =>
    match parse ending a (b :: here) outer tokens with
    | .error e => .error e
    | .ok p =>
      match parse ending b here outer p.rest with
      | .error e => .error e
      | .ok q =>
        .ok ⟨p.trees ++ q.trees, q.rest, Nat.le_trans q.rest_le p.rest_le, fun h => by
          have := p.rest_le
          have := q.rest_le
          simp only [Phrase.advances, Bool.or_eq_true] at h
          rcases h with h | h
          · have := p.rest_lt h
            omega
          · have := q.rest_lt h
            omega⟩
  | .option c a =>
    match checkStart ending (.option c a :: here) outer tokens with
    | .error e => .error e
    | .ok _ =>
      match c.decide ending a (here ++ outer) tokens with
      | .error e => .error e
      | .ok false => .ok (Parsed.empty tokens rfl)
      | .ok true =>
        match parse ending a here outer tokens with
        | .error e => .error e
        | .ok p => .ok ⟨p.trees, p.rest, p.rest_le, fun h => by simp [Phrase.advances] at h⟩
  | .many c a =>
    match checkStart ending (.many c a :: here) outer tokens with
    | .error e => .error e
    | .ok _ =>
      match c.decide ending a (.many c a :: here ++ outer) tokens with
      | .error e => .error e
      | .ok false => .ok (Parsed.empty tokens rfl)
      | .ok true =>
        match parse ending a (.many c a :: here) outer tokens with
        | .error e => .error e
        | .ok p =>
          match checkAgain ending (.many c a :: here) outer p.rest with
          | .error e => .error e
          | .ok _ =>
            if _h : p.rest.length < tokens.length then
              match parse ending (.many c a) here outer p.rest with
              | .error e => .error e
              | .ok q =>
                .ok ⟨p.trees ++ q.trees, q.rest, Nat.le_trans q.rest_le p.rest_le, fun h => by
                  simp [Phrase.advances] at h⟩
            else .ok ⟨p.trees, p.rest, p.rest_le, fun h => by simp [Phrase.advances] at h⟩
  | .either c a b =>
    match checkStart ending (.either c a b :: here) outer tokens with
    | .error e => .error e
    | .ok _ =>
      match c.decide ending a (here ++ outer) tokens with
      | .error e => .error e
      | .ok true =>
        match parse ending a here outer tokens with
        | .error e => .error e
        | .ok p =>
          .ok ⟨p.trees, p.rest, p.rest_le, fun h => p.rest_lt (by
            simp only [Phrase.advances, Bool.and_eq_true] at h
            exact h.1)⟩
      | .ok false =>
        match parse ending b here outer tokens with
        | .error e => .error e
        | .ok p =>
          .ok ⟨p.trees, p.rest, p.rest_le, fun h => p.rest_lt (by
            simp only [Phrase.advances, Bool.and_eq_true] at h
            exact h.2)⟩
termination_by tokens.length * Phrase.load + form.weight
decreasing_by
  · have := r.weight_phrase_lt_rank
    simp only [Phrase.weight]
    omega
  · simp only [Phrase.weight]
    omega
  · have hload : Phrase.load = 200 := rfl
    have hle := p.rest_le
    simp only [Phrase.weight, hload]
    by_cases ha : a.advances = true
    · have := p.rest_lt ha
      simp only [ha, if_true]
      omega
    · simp only [ha, Bool.false_eq_true, if_false]
      omega
  · simp only [Phrase.weight]
    omega
  · simp only [Phrase.weight]
    omega
  · have hload : Phrase.load = 200 := rfl
    simp only [Phrase.weight, hload]
    omega
  · simp only [Phrase.weight]
    omega
  · simp only [Phrase.weight]
    omega

structure Derived where
  tree : Tree
  size : Nat
deriving Repr

/-- Reads a start rule from the head of a text; what stands behind it is left alone, but for its
first token. -/
def Lexed.parse (lexed : Lexed) (start : Rule) : Except SyntaxError Derived := do
  let _ ← look lexed.ending lexed.tokens 0
  let p ← CompiScript.parse lexed.ending start.phrase [] [] lexed.tokens
  return ⟨.node start p.trees, lexed.tokens.length - p.rest.length⟩

def parseText (start : Rule) (text : String) : Except SyntaxError Derived :=
  (Lexed.ofString text).parse start

end CompiScript
