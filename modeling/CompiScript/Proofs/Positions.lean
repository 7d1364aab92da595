import Mathlib.Data.List.TakeWhile
import CompiScript.Proofs.Prefixes.Positions
import CompiScript.Proofs.Segments

namespace CompiScript

/-- The place counted from the start of the text: the line by the line feeds before it, the column by the characters
behind the last of them. -/
structure Position.CountedIn (text : List Char) (p : Position) : Prop where
  inside : p.offset ≤ text.length
  line : p.line = 1 + (text.take p.offset).count '\n'
  column : ∃ earlier here, text.take p.offset = earlier ++ here ∧ (earlier = [] ∨ earlier.getLast? = some '\n') ∧
    '\n' ∉ here ∧ p.column = here.length

theorem Position.behind_countedIn (front back : List Char) : (behind front).CountedIn (front ++ back) := by
  have htake : (front ++ back).take (behind front).offset = front := List.take_left' rfl
  refine ⟨by simp [behind], ?_, ?_⟩
  · rw [htake, Nat.add_comm]
    rfl
  · let isOther : Char → Bool := (· ≠ '\n')
    have hsplit := congrArg List.reverse (List.takeWhile_append_dropWhile (p := isOther) (l := front.reverse))
    rw [List.reverse_append, List.reverse_reverse] at hsplit
    refine ⟨(front.reverse.dropWhile isOther).reverse, (front.reverse.takeWhile isOther).reverse, ?_, ?_, ?_, ?_⟩
    · rw [htake, hsplit]
    · cases hrest : front.reverse.dropWhile isOther with
      | nil => exact .inl rfl
      | cons c rest =>
        have hc := List.head_dropWhile_not isOther (l := front.reverse) (by rw [hrest]; exact List.cons_ne_nil c rest)
        simp only [hrest, List.head_cons, isOther, decide_eq_false_iff_not, not_not] at hc
        rw [hc, List.getLast?_reverse]
        exact .inr rfl
    · intro hmem
      have := List.mem_takeWhile_imp (List.mem_reverse.mp hmem)
      simp [isOther] at this
    · rw [List.length_reverse]
      rfl

theorem Divided.stands {before cs left : List Char} {segments : List Segment} (h : Divided before cs segments left) :
    ∀ s ∈ segments, ∃ back, before ++ cs = s.before ++ (s.text ++ back) := by
  induction h with
  | stop before left => exact fun _ hs => nomatch hs
  | @next before u v left r segments hu hv ih =>
    refine List.forall_mem_cons.mpr ⟨⟨v, rfl⟩, ?_⟩
    rwa [← List.append_assoc]

theorem Segment.token?_contribution {s : Segment} {t : Token} (h : s.token? = some t)
    (hs : s.text ∈ s.rule.language) : t.contribution.toList = s.text ∧ t.position = Position.behind s.before := by
  obtain ⟨r, before, text⟩ := s
  cases r with
  | blank => cases h
  | comment => cases h
  | token k =>
    cases h
    have hk : k ≠ .eof := by
      rintro rfl
      exact LexicalRule.notMem_eof hs
    exact ⟨by simp [Token.contribution, hk], rfl⟩

namespace LexicalError

theorem attempt_prefix (cs : List Char) : attempt cs <+: cs := by
  unfold attempt
  split
  · next rest =>
    have hrest := List.takeWhile_append_dropWhile (p := LexicalRule.isStringPart) (l := rest)
    refine ⟨(rest.dropWhile LexicalRule.isStringPart).drop 1, ?_⟩
    rw [List.cons_append, List.cons_append, List.append_assoc, List.take_append_drop, hrest]
  · exact List.take_prefix 1 _

theorem attempt_ne_nil {c : Char} {cs : List Char} : attempt (c :: cs) ≠ [] := by
  unfold attempt
  split <;> simp

end LexicalError

namespace Lexed

theorem ofString_divided (text : String) : ∃ segments left, Divided [] text.toList segments left ∧
    ofString text = ⟨segments.filterMap Segment.token?, endingAt (segments.map Segment.text).flatten left⟩ := by
  obtain ⟨segments, left, hdivided, -, hscan⟩ := scan_divided [] text.toList
  exact ⟨segments, left, hdivided, hscan⟩

theorem stream_stands (text : String) : ∀ t ∈ (ofString text).stream, ∃ front back,
    text.toList = front ++ (t.contribution.toList ++ back) ∧ t.position = Position.behind front ∧
      (t.kind = .eof → back = []) := by
  intro t ht
  rcases List.mem_append.mp ht with htoken | hend
  · have hmem := ofString_mem_language text t htoken
    obtain ⟨segments, left, hdivided, hlexed⟩ := ofString_divided text
    rw [hlexed] at htoken
    obtain ⟨s, hs, hst⟩ := List.mem_filterMap.mp htoken
    obtain ⟨htext, hposition⟩ := Segment.token?_contribution hst (hdivided.mem_language s hs)
    obtain ⟨back, hback⟩ := hdivided.stands s hs
    refine ⟨s.before, back, htext ▸ hback, hposition, fun hkind => ?_⟩
    rw [hkind] at hmem
    exact absurd hmem LexicalRule.notMem_eof
  · -- the end of a text contributes nothing to it and stands behind all of it
    obtain ⟨segments, left, hdivided, hlexed⟩ := ofString_divided text
    rw [hlexed] at hend
    cases left with
    | cons c left => cases hend
    | nil =>
      obtain rfl := List.mem_singleton.mp hend
      exact ⟨(segments.map Segment.text).flatten, [], hdivided.append_eq.symm, rfl, fun _ => rfl⟩

theorem fault_stands {text : String} {e : LexicalError} (h : (ofString text).ending = .fault e) :
    ∃ front c back, text.toList = front ++ c :: back ∧
      e = ⟨Position.behind front, String.ofList (LexicalError.attempt (c :: back))⟩ := by
  obtain ⟨segments, left, hdivided, hlexed⟩ := ofString_divided text
  rw [hlexed] at h
  cases left with
  | nil => cases h
  | cons c back => exact ⟨_, c, back, hdivided.append_eq.symm, (Ending.fault.inj h).symm⟩

end Lexed

/-- Every token stands at its place in the text, the end of the text behind all of it, and a fault where the reading
stops, which is the place that its message names; line and column of these places are counted from the start of the
text. -/
theorem positions_counted (text : String) :
    let lexed := Lexed.ofString text
    (∀ t ∈ lexed.stream, t.position.CountedIn text.toList ∧
      t.contribution.toList <+: text.toList.drop t.position.offset ∧
      (t.kind = .eof → t.position.offset = text.length)) ∧
    (∀ e, lexed.ending = .fault e → e.position.CountedIn text.toList ∧ e.text ≠ "" ∧
      e.text.toList <+: text.toList.drop e.position.offset ∧
      (SyntaxError.lexical e).message =
        "Line " ++ toString e.position.line ++ ":" ++ toString e.position.column ++ " - " ++ e.message) ∧
    ((∀ e, lexed.ending ≠ .fault e) → ∃ t, lexed.stream.getLast? = some t ∧ t.kind = .eof) := by
  intro lexed
  have hdrop : ∀ front back, text.toList = front ++ back →
      text.toList.drop (Position.behind front).offset = back := by
    intro front back h
    rw [h]
    exact List.drop_left' rfl
  refine ⟨?_, ?_, ?_⟩
  · intro t ht
    obtain ⟨front, back, htext, hposition, heof⟩ := Lexed.stream_stands text t ht
    rw [hposition, hdrop _ _ htext]
    refine ⟨htext ▸ Position.behind_countedIn front _, List.prefix_append _ _, fun hkind => ?_⟩
    have hempty : t.contribution = "" := if_pos hkind
    rw [heof hkind, hempty] at htext
    rw [← String.length_toList, htext]
    exact (congrArg List.length (List.append_nil front)).symm
  · intro e he
    obtain ⟨front, c, back, htext, rfl⟩ := Lexed.fault_stands he
    refine ⟨htext ▸ Position.behind_countedIn front _, ?_, ?_, rfl⟩
    · intro hempty
      have hnil := congrArg String.toList hempty
      rw [String.toList_ofList] at hnil
      exact LexicalError.attempt_ne_nil hnil
    · rw [hdrop _ _ htext, String.toList_ofList]
      exact LexicalError.attempt_prefix _
  · intro hnot
    cases hending : lexed.ending with
    | fault e => exact absurd hending (hnot e)
    | finish p =>
      refine ⟨Token.eof p, ?_, rfl⟩
      rw [Lexed.stream, hending, List.getLast?_append]
      rfl

theorem positions_counted_mixed :
    let lexed := Lexed.ofString "\"p\nq\"//\n\t1.x\r\n #"
    let text := "\"p\nq\"//\n\t1.x\r\n #".toList
    (⟨⟨.dot, "."⟩, ⟨3, 2, 10⟩⟩ : Token) ∈ lexed.stream ∧ Position.CountedIn text ⟨3, 2, 10⟩ ∧
      lexed.ending = .fault ⟨⟨4, 1, 15⟩, "#"⟩ ∧ Position.CountedIn text ⟨4, 1, 15⟩ := by
  intro lexed text
  obtain ⟨htokens, hfault, -⟩ := positions_counted "\"p\nq\"//\n\t1.x\r\n #"
  have hmem : (⟨⟨.dot, "."⟩, ⟨3, 2, 10⟩⟩ : Token) ∈ lexed.stream := by decide +kernel
  have hending : lexed.ending = .fault ⟨⟨4, 1, 15⟩, "#"⟩ := by decide +kernel
  exact ⟨hmem, (htokens _ hmem).1, hending, (hfault _ hending).1⟩

end CompiScript
