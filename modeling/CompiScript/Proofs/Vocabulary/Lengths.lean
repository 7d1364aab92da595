import CompiScript.Proofs.Vocabulary.Languages

namespace CompiScript

open Computability

namespace LexicalRule

variable {u v w cs : List Char} {n : Nat}

section Found

theorem mem_takeWhile_eq_true {p : Char → Bool} : ∀ c ∈ cs.takeWhile p, p c = true := by
  intro c hc
  have hall := List.all_takeWhile (p := p) (l := cs)
  exact List.all_eq_true.mp hall c hc

theorem numberLength_mem (h : numberLength cs = some n) :
    ∃ u v, cs = u ++ v ∧ u.length = n ∧ u ∈ (token .number).language := by
  have hsplit := List.takeWhile_append_dropWhile (p := Char.isDigit) (l := cs)
  have hdigits : ∀ c ∈ cs.takeWhile Char.isDigit, c.isDigit = true := mem_takeWhile_eq_true
  unfold numberLength at h
  split at h
  · cases h
  · next rest hdrop hne =>
    have hwhole : cs.takeWhile Char.isDigit ≠ [] := hne
    rw [hdrop] at hsplit
    split at h
    · cases h
      exact ⟨_, _, hsplit.symm, rfl, mem_number.mpr ⟨_, hwhole, hdigits, .inl rfl⟩⟩
    · next hfraction =>
      cases h
      rw [← List.takeWhile_append_dropWhile (p := Char.isDigit) (l := rest), ← List.cons_append,
        ← List.append_assoc] at hsplit
      refine ⟨_, _, hsplit.symm, by grind, mem_number.mpr ⟨_, hwhole, hdigits, .inr ?_⟩⟩
      exact ⟨_, hfraction, mem_takeWhile_eq_true, rfl⟩
  · next hne _ =>
    cases h
    exact ⟨_, _, hsplit.symm, rfl, mem_number.mpr ⟨_, hne, hdigits, .inl rfl⟩⟩

theorem stringLength_mem (h : stringLength cs = some n) :
    ∃ u v, cs = u ++ v ∧ u.length = n ∧ u ∈ (token .string).language := by
  unfold stringLength at h
  split at h
  · next rest =>
    have hsplit := List.takeWhile_append_dropWhile (p := isStringPart) (l := rest)
    split at h
    · next after hdrop =>
      cases h
      rw [hdrop] at hsplit
      refine ⟨'\"' :: rest.takeWhile isStringPart ++ ['\"'], after, ?_, by simp, ?_⟩
      · nth_rewrite 1 [← hsplit]
        simp
      · exact mem_string.mpr ⟨_, mem_takeWhile_eq_true, rfl⟩
    · cases h
  · cases h

theorem identifierLength_mem (h : identifierLength cs = some n) :
    ∃ u v, cs = u ++ v ∧ u.length = n ∧ u ∈ (token .identifier).language := by
  unfold identifierLength at h
  split at h
  · next c rest =>
    split at h
    · next hc =>
      cases h
      refine ⟨c :: rest.takeWhile isIdentifierPart, rest.dropWhile isIdentifierPart, ?_, rfl, ?_⟩
      · rw [List.cons_append, List.takeWhile_append_dropWhile]
      · exact mem_identifier.mpr ⟨_, _, rfl, hc, mem_takeWhile_eq_true⟩
    · cases h
  · cases h

theorem blankLength_mem (h : blankLength cs = some n) :
    ∃ u v, cs = u ++ v ∧ u.length = n ∧ u ∈ blank.language := by
  unfold blankLength at h
  split at h
  · cases h
  · next hne =>
    cases h
    exact ⟨_, _, List.takeWhile_append_dropWhile.symm, rfl, mem_blank.mpr ⟨hne, mem_takeWhile_eq_true⟩⟩

theorem commentLength_mem (h : commentLength cs = some n) :
    ∃ u v, cs = u ++ v ∧ u.length = n ∧ u ∈ comment.language := by
  unfold commentLength at h
  split at h
  · next rest =>
    have hline : ∀ c ∈ rest.takeWhile (· ≠ '\n'), c ≠ '\n' := by
      intro c hc
      simpa using mem_takeWhile_eq_true c hc
    have hsplit := List.takeWhile_append_dropWhile (p := (· ≠ '\n')) (l := rest)
    dsimp only at h
    cases hdrop : rest.dropWhile (· ≠ '\n') with
    | nil =>
      rw [hdrop, List.append_nil] at hsplit
      rw [if_neg (by rw [hsplit]; omega)] at h
      cases h
      rw [hsplit] at hline ⊢
      exact ⟨'/' :: '/' :: rest, [], by simp, rfl, mem_comment.mpr ⟨rest, hline, .inl rfl⟩⟩
    | cons c after =>
      -- The line ends before the text does, so what stops it is a line feed.
      have hc : c = '\n' := by
        have hhead := List.head?_dropWhile_not (· ≠ '\n') rest
        rw [hdrop] at hhead
        simpa using hhead
      subst hc
      rw [hdrop] at hsplit
      have hlength := congrArg List.length hsplit
      rw [List.length_append, List.length_cons] at hlength
      rw [if_pos (by omega)] at h
      cases h
      refine ⟨'/' :: '/' :: rest.takeWhile (· ≠ '\n') ++ ['\n'], after, ?_, by simp,
        mem_comment.mpr ⟨_, hline, .inr rfl⟩⟩
      nth_rewrite 1 [← hsplit]
      simp
  · cases h

theorem length?_mem {r : LexicalRule} (h : r.length? cs = some n) :
    ∃ u v, cs = u ++ v ∧ u.length = n ∧ u ∈ r.language := by
  cases r with
  | blank => exact blankLength_mem h
  | comment => exact commentLength_mem h
  | token k =>
    cases hs : k.spelling? with
    | some s =>
      rw [length?_literal hs] at h
      obtain ⟨hn, htake⟩ := literalLength_eq_some h
      refine ⟨cs.take n, cs.drop n, (List.take_append_drop n cs).symm, ?_, (mem_literal hs).mpr htake⟩
      rw [htake, String.length_toList, hn]
    | none =>
      cases k <;> simp only [Kind.spelling?, reduceCtorEq] at hs
      · simp [length?, Kind.spelling?] at h
      · exact numberLength_mem h
      · exact stringLength_mem h
      · exact identifierLength_mem h

end Found

section Longest

variable (v)

theorem le_numberLength (h : u ∈ (token .number).language) :
    ∃ n, numberLength (u ++ v) = some n ∧ u.length ≤ n := by
  obtain ⟨whole, hne, hdigits, rfl | ⟨fraction, hfraction, hdigits', rfl⟩⟩ := mem_number.mp h
  · have htake : (u ++ v).takeWhile Char.isDigit = u ++ v.takeWhile Char.isDigit :=
      List.takeWhile_append_of_pos hdigits
    unfold numberLength
    split
    · next hnil =>
      rw [htake] at hnil
      exact absurd (List.append_eq_nil_iff.mp hnil).1 hne
    · split
      · exact ⟨_, rfl, by simp [htake]⟩
      · exact ⟨_, rfl, by grind⟩
    · exact ⟨_, rfl, by simp [htake]⟩
  · have hpoint : Char.isDigit '.' = false := rfl
    have htake : (whole ++ '.' :: fraction ++ v).takeWhile Char.isDigit = whole := by
      rw [List.append_assoc, List.takeWhile_append_of_pos hdigits]
      simp [hpoint]
    have hdrop : (whole ++ '.' :: fraction ++ v).dropWhile Char.isDigit = '.' :: (fraction ++ v) := by
      rw [List.append_assoc, List.dropWhile_append_of_pos hdigits]
      simp [hpoint]
    have hrest : (fraction ++ v).takeWhile Char.isDigit = fraction ++ v.takeWhile Char.isDigit :=
      List.takeWhile_append_of_pos hdigits'
    unfold numberLength
    rw [htake, hdrop]
    split
    · exact absurd rfl hne
    · next heq =>
      cases heq
      split
      · next hnil =>
        rw [hrest] at hnil
        exact absurd (List.append_eq_nil_iff.mp hnil).1 hfraction
      · exact ⟨_, rfl, by grind⟩
    · next hno => exact absurd rfl (hno _)

theorem le_stringLength (h : u ∈ (token .string).language) :
    ∃ n, stringLength (u ++ v) = some n ∧ u.length ≤ n := by
  obtain ⟨body, hbody, rfl⟩ := mem_string.mp h
  have hmark : isStringPart '\"' = false := rfl
  refine ⟨body.length + 2, ?_, by simp⟩
  simp [stringLength, List.dropWhile_append_of_pos hbody, List.takeWhile_append_of_pos hbody, hmark]

theorem le_identifierLength (h : u ∈ (token .identifier).language) :
    ∃ n, identifierLength (u ++ v) = some n ∧ u.length ≤ n := by
  obtain ⟨c, rest, rfl, hc, hrest⟩ := mem_identifier.mp h
  rw [List.cons_append, identifierLength, if_pos hc, List.takeWhile_append_of_pos hrest]
  exact ⟨_, rfl, by simp⟩

theorem le_blankLength (h : u ∈ blank.language) : ∃ n, blankLength (u ++ v) = some n ∧ u.length ≤ n := by
  obtain ⟨hne, hblank⟩ := mem_blank.mp h
  have htake : (u ++ v).takeWhile isBlank = u ++ v.takeWhile isBlank := List.takeWhile_append_of_pos hblank
  unfold blankLength
  split
  · next hnil =>
    rw [htake] at hnil
    exact absurd (List.append_eq_nil_iff.mp hnil).1 hne
  · exact ⟨_, rfl, by simp [htake]⟩

theorem le_commentLength (h : u ∈ comment.language) : ∃ n, commentLength (u ++ v) = some n ∧ u.length ≤ n := by
  obtain ⟨line, hline, hu⟩ := mem_comment.mp h
  have hline' : ∀ c ∈ line, (fun c => decide (c ≠ '\n')) c = true := by
    simpa using hline
  rcases hu with rfl | rfl
  · simp only [List.cons_append, commentLength, List.takeWhile_append_of_pos hline']
    split
    · exact ⟨_, rfl, by grind⟩
    · exact ⟨_, rfl, by simp⟩
  · simp only [List.cons_append, List.append_assoc, commentLength, List.takeWhile_append_of_pos hline']
    exact ⟨line.length + 3, by simp, by simp⟩

theorem le_length? {r : LexicalRule} (h : u ∈ r.language) : ∃ n, r.length? (u ++ v) = some n ∧ u.length ≤ n := by
  cases r with
  | blank => exact le_blankLength v h
  | comment => exact le_commentLength v h
  | token k =>
    cases hs : k.spelling? with
    | some s =>
      rw [length?_literal hs]
      obtain rfl := (mem_literal hs).mp h
      exact ⟨s.length, by simp [literalLength], String.length_toList.le⟩
    | none =>
      cases k <;> simp only [Kind.spelling?, reduceCtorEq] at hs
      · exact absurd h notMem_eof
      · exact le_numberLength v h
      · exact le_stringLength v h
      · exact le_identifierLength v h

end Longest

section Ordinary

def isSpecial (c : Char) : Bool :=
  isBlank c || c = '\"' || c = '\\'

theorem isSpecial_of_part {c : Char} (h : isIdentifierPart c = true) : isSpecial c = false := by
  cases hc : isSpecial c with
  | false => rfl
  | true =>
    simp only [isSpecial, isBlank, Bool.or_eq_true, decide_eq_true_eq] at hc
    rcases hc with ((((rfl | rfl) | rfl) | rfl) | rfl) | rfl <;> cases h

theorem isSpecial_of_digit {c : Char} (h : c.isDigit = true) : isSpecial c = false :=
  isSpecial_of_part (isIdentifierPart_iff.mpr (.inr h))

theorem isSpecial_of_literal {k : Kind} {s : String} (h : k.spelling? = some s) :
    ∀ c ∈ s.toList, isSpecial c = false := by
  have hall : (s.toList.all fun c => !isSpecial c) = true := by
    cases k <;> simp only [Kind.spelling?, Option.some.injEq, reduceCtorEq] at h <;> subst h <;> decide
  intro c hc
  simpa using List.all_eq_true.mp hall c hc

theorem isSpecial_of_mem {k : Kind} (h : w ∈ (token k).language) (hk : k ≠ .string) :
    ∀ c ∈ w, isSpecial c = false := by
  cases hs : k.spelling? with
  | some s =>
    rw [(mem_literal hs).mp h]
    exact isSpecial_of_literal hs
  | none =>
    cases k <;> simp only [Kind.spelling?, reduceCtorEq] at hs
    · exact absurd h notMem_eof
    · obtain ⟨whole, -, hwhole, rfl | ⟨fraction, -, hfraction, rfl⟩⟩ := mem_number.mp h
      · exact fun c hc => isSpecial_of_digit (hwhole c hc)
      · refine List.forall_mem_append.mpr ⟨fun c hc => isSpecial_of_digit (hwhole c hc), ?_⟩
        exact List.forall_mem_cons.mpr ⟨rfl, fun c hc => isSpecial_of_digit (hfraction c hc)⟩
    · exact absurd rfl hk
    · obtain ⟨c, rest, rfl, hc, hrest⟩ := mem_identifier.mp h
      refine List.forall_mem_cons.mpr ⟨?_, fun d hd => isSpecial_of_part (hrest d hd)⟩
      exact isSpecial_of_part (isIdentifierPart_iff.mpr (.inl hc))

theorem notMem_backslash {k : Kind} (h : w ∈ (token k).language) : '\\' ∉ w := by
  intro hmem
  by_cases hk : k = .string
  · subst hk
    obtain ⟨body, hbody, rfl⟩ := mem_string.mp h
    have hinside : '\\' ∈ body := by simpa using hmem
    cases hbody _ hinside
  · cases isSpecial_of_mem h hk _ hmem

theorem eq_nil_of_slash {k : Kind} (h : '/' :: w ∈ (token k).language) : w = [] := by
  cases hs : k.spelling? with
  | some s =>
    have hw := (mem_literal hs).mp h
    cases k <;> simp only [Kind.spelling?, Option.some.injEq, reduceCtorEq] at hs <;> subst hs <;>
      first | exact (List.cons.inj hw).2 | exact absurd (List.cons.inj hw).1 (by decide)
  | none =>
    cases k <;> simp only [Kind.spelling?, reduceCtorEq] at hs
    · exact absurd h notMem_eof
    · obtain ⟨whole, hne, hwhole, hw⟩ := mem_number.mp h
      obtain ⟨c, whole, rfl⟩ := List.exists_cons_of_ne_nil hne
      have hc := hwhole c (.head _)
      rcases hw with hw | ⟨fraction, -, -, hw⟩
      · rw [← (List.cons.inj hw).1] at hc
        cases hc
      · rw [← (List.cons.inj hw).1] at hc
        cases hc
    · obtain ⟨body, -, hw⟩ := mem_string.mp h
      exact absurd (List.cons.inj hw).1 (by decide)
    · obtain ⟨c, rest, hw, hc, -⟩ := mem_identifier.mp h
      rw [← (List.cons.inj hw).1] at hc
      cases hc

end Ordinary

end LexicalRule

end CompiScript
