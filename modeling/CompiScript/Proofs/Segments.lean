import CompiScript.Parser.Input
import CompiScript.Proofs.Vocabulary.Lengths

/-!
A text is cut from left to right into segments, each of them the longest text that a lexical rule matches there.
Main statement: the tokens of a text are its segments, blanks and comments apart, and a text has a fault exactly
where such a cutting gets stuck before the end.
-/

namespace CompiScript

namespace LexicalRule

/-- The rule matches `u` at the head of `u ++ v`, no rule matches more, and no earlier one as much. -/
structure Cuts (r : LexicalRule) (u v : List Char) : Prop where
  nonempty : u ≠ []
  mem : u ∈ r.language
  longest : ∀ (s : LexicalRule) (x : List Char), x <+: u ++ v → x ∈ s.language → x.length ≤ u.length
  earliest : ∀ s : LexicalRule, u ∈ s.language → all.idxOf r ≤ all.idxOf s

def Stuck (cs : List Char) : Prop :=
  ∀ (r : LexicalRule) (u : List Char), u <+: cs → u ≠ [] → u ∉ r.language

variable {r s : LexicalRule} {u v u' v' cs : List Char} {n : Nat}

theorem ne_nil_of_mem (h : u ∈ r.language) : u ≠ [] := by
  rintro rfl
  cases r with
  | blank => exact (mem_blank.mp h).1 rfl
  | comment =>
    obtain ⟨line, -, hline | hline⟩ := mem_comment.mp h <;> cases hline
  | token k =>
    cases hs : k.spelling? with
    | some s =>
      have hlength := congrArg List.length ((mem_literal hs).mp h)
      have := Kind.spelling_pos hs
      rw [String.length_toList, List.length_nil] at hlength
      omega
    | none =>
      cases k <;> simp only [Kind.spelling?, reduceCtorEq] at hs
      · exact notMem_eof h
      · obtain ⟨whole, hne, -, hw | ⟨fraction, -, -, hw⟩⟩ := mem_number.mp h
        · exact hne hw.symm
        · exact hne (List.append_eq_nil_iff.mp hw.symm).1
      · obtain ⟨body, -, hw⟩ := mem_string.mp h
        cases hw
      · obtain ⟨c, rest, hw, -⟩ := mem_identifier.mp h
        cases hw

theorem mem_all_of_mem (h : u ∈ r.language) : r ∈ all := by
  cases r with
  | blank => decide
  | comment => decide
  | token k =>
    cases hs : k.spelling? with
    | some s => exact List.mem_append_left _ (List.mem_map_of_mem (Kind.mem_literals hs))
    | none =>
      cases k <;> simp only [Kind.spelling?, reduceCtorEq] at hs
      · exact absurd h notMem_eof
      all_goals decide

theorem longest?_cuts (h : longest? all cs = some (r, n)) : ∃ u v, cs = u ++ v ∧ u.length = n ∧ r.Cuts u v := by
  obtain ⟨before, after, hall, hr, hbefore, hafter⟩ := longest?_eq_some h
  obtain ⟨u, v, rfl, rfl, hu⟩ := length?_mem hr
  have hnodup : all.Nodup := by decide
  have hlongest : ∀ (s : LexicalRule) (m : Nat), s ∈ all → s.length? (u ++ v) = some m → m ≤ u.length := by
    intro s m hs hm
    rw [hall] at hs
    rcases List.mem_append.mp hs with hs | hs
    · exact (hbefore s hs m hm).le
    · rcases List.mem_cons.mp hs with rfl | hs
      · rw [hr] at hm
        cases hm
        exact le_refl _
      · exact hafter s hs m hm
  refine ⟨u, v, rfl, rfl, ne_nil_of_mem hu, hu, ?_, ?_⟩
  · rintro s x ⟨y, hy⟩ hx
    obtain ⟨m, hm, hle⟩ := le_length? y hx
    rw [hy] at hm
    exact hle.trans (hlongest s m (mem_all_of_mem hx) hm)
  · intro s hs
    obtain ⟨m, hm, hle⟩ := le_length? v hs
    have hs' : s ∉ before := fun hmem => absurd (hbefore s hmem m hm) (by omega)
    rw [hall] at hnodup
    have hr' : r ∉ before := fun hmem => (List.disjoint_of_nodup_append hnodup) hmem (.head _)
    rw [hall, List.idxOf_append_of_notMem hs', List.idxOf_append_of_notMem hr', List.idxOf_cons_self]
    omega

theorem Cuts.unique (h : r.Cuts u v) (h' : s.Cuts u' v') (heq : u ++ v = u' ++ v') : r = s ∧ u = u' ∧ v = v' := by
  have hle := h'.longest r u (heq ▸ List.prefix_append u v) h.mem
  have hge := h.longest s u' (heq ▸ List.prefix_append u' v') h'.mem
  obtain ⟨rfl, rfl⟩ := List.append_inj heq (by omega)
  have hindex : all.idxOf r = all.idxOf s := Nat.le_antisymm (h.earliest s h'.mem) (h'.earliest r h.mem)
  exact ⟨(List.idxOf_inj (mem_all_of_mem h.mem)).mp hindex, rfl, rfl⟩

theorem Cuts.not_stuck (h : r.Cuts u v) : ¬Stuck (u ++ v) :=
  fun hstuck => hstuck r u (List.prefix_append u v) h.nonempty h.mem

theorem longest?_eq_none_iff : longest? all cs = none ↔ Stuck cs := by
  constructor
  · rintro h r u ⟨v, rfl⟩ - hu
    obtain ⟨n, hn, -⟩ := le_length? v hu
    rw [longest?_eq_none h r (mem_all_of_mem hu)] at hn
    cases hn
  · intro hstuck
    cases h : longest? all cs with
    | none => rfl
    | some best =>
      obtain ⟨u, v, rfl, -, hcuts⟩ := longest?_cuts h
      exact absurd hstuck hcuts.not_stuck

theorem Cuts.longest?_eq (h : r.Cuts u v) : longest? all (u ++ v) = some (r, u.length) := by
  cases hbest : longest? all (u ++ v) with
  | none => exact absurd (longest?_eq_none_iff.mp hbest) h.not_stuck
  | some best =>
    obtain ⟨u', v', heq, hlength, hcuts⟩ := longest?_cuts hbest
    obtain ⟨hrule, rfl, -⟩ := h.unique hcuts heq
    rw [hrule, hlength]

end LexicalRule

def Position.behind (before : List Char) : Position :=
  ⟨before.count '\n' + 1, (before.reverse.takeWhile (· ≠ '\n')).length, before.length⟩

theorem Position.advance_behind (before u : List Char) : (behind before).advance u = behind (before ++ u) := by
  induction u generalizing before with
  | nil => rw [List.append_nil]; rfl
  | cons c u ih =>
    have hnext : (behind before).next c = behind (before ++ [c]) := by
      by_cases hc : c = '\n'
      · simp [next, behind, hc]
      · simp [next, behind, hc]
    rw [List.append_cons, ← ih, ← hnext]
    rfl

def LexicalRule.token? (r : LexicalRule) (text : List Char) (p : Position) : Option Token :=
  match r with
  | .token k => some ⟨⟨k, String.ofList text⟩, p⟩
  | _ => none

structure Segment where
  rule : LexicalRule
  before : List Char
  text : List Char

def Segment.token? (s : Segment) : Option Token :=
  s.rule.token? s.text (Position.behind s.before)

inductive Divided : (before text : List Char) → List Segment → (left : List Char) → Prop
  | stop (before left : List Char) : Divided before left [] left
  | next {before u v left : List Char} {r : LexicalRule} {segments : List Segment} (hu : r.Cuts u v)
      (hv : Divided (before ++ u) v segments left) : Divided before (u ++ v) (⟨r, before, u⟩ :: segments) left

namespace Divided

variable {before cs left left' : List Char} {segments segments' : List Segment}

theorem append_eq (h : Divided before cs segments left) : (segments.map Segment.text).flatten ++ left = cs := by
  induction h with
  | stop before left => rfl
  | next hu hv ih => rw [List.map_cons, List.flatten_cons, List.append_assoc, ih]

theorem unique (h : Divided before cs segments left) (h' : Divided before cs segments' left')
    (hleft : LexicalRule.Stuck left) (hleft' : LexicalRule.Stuck left') : segments' = segments ∧ left' = left := by
  induction h generalizing segments' with
  | stop before left =>
    cases h' with
    | stop => exact ⟨rfl, rfl⟩
    | next hu' hv' => exact absurd hleft hu'.not_stuck
  | @next before u v left r segments hu hv ih =>
    generalize htext : u ++ v = text at h'
    cases h' with
    | stop => exact absurd (htext ▸ hleft') hu.not_stuck
    | next hu' hv' =>
      obtain ⟨rfl, rfl, rfl⟩ := hu.unique hu' htext
      obtain ⟨rfl, rfl⟩ := ih hv' hleft
      exact ⟨rfl, rfl⟩

end Divided

namespace Lexed

variable {r : LexicalRule} {u v cs : List Char}

theorem scan_cuts (p : Position) (h : r.Cuts u v) : scan p (u ++ v) =
    ⟨(r.token? u p).toList ++ (scan (p.advance u) v).tokens, (scan (p.advance u) v).ending⟩ := by
  obtain ⟨c, rest, rfl⟩ := List.exists_cons_of_ne_nil h.nonempty
  have hbest := h.longest?_eq
  rw [List.cons_append] at hbest ⊢
  rw [scan, hbest]
  simp only [List.length_cons, Nat.add_sub_cancel, List.take_left, List.drop_left]
  cases r <;> rfl

theorem scan_stuck (p : Position) (h : LexicalRule.Stuck cs) (hne : cs ≠ []) :
    scan p cs = ⟨[], .fault ⟨p, String.ofList (LexicalError.attempt cs)⟩⟩ := by
  obtain ⟨c, rest, rfl⟩ := List.exists_cons_of_ne_nil hne
  rw [scan, LexicalRule.longest?_eq_none_iff.mpr h]

def endingAt (before : List Char) : List Char → Ending
  | [] => .finish (Position.behind before)
  | left => .fault ⟨Position.behind before, String.ofList (LexicalError.attempt left)⟩

theorem scan_divided (before cs : List Char) : ∃ segments left, Divided before cs segments left ∧
    LexicalRule.Stuck left ∧ scan (Position.behind before) cs =
      ⟨segments.filterMap Segment.token?, endingAt (before ++ (segments.map Segment.text).flatten) left⟩ := by
  induction hlength : cs.length using Nat.strongRecOn generalizing before cs with
  | ind n ih =>
    cases hbest : LexicalRule.longest? LexicalRule.all cs with
    | none =>
      have hstuck := LexicalRule.longest?_eq_none_iff.mp hbest
      refine ⟨[], cs, .stop before cs, hstuck, ?_⟩
      simp only [List.filterMap_nil, List.map_nil, List.flatten_nil, List.append_nil]
      by_cases hne : cs = []
      · subst hne
        rw [scan, endingAt]
      · rw [scan_stuck _ hstuck hne, endingAt]
        exact hne
    | some best =>
      obtain ⟨u, v, rfl, -, hcuts⟩ := LexicalRule.longest?_cuts hbest
      have hshorter : v.length < n := by
        have := List.length_pos_iff.mpr hcuts.nonempty
        rw [List.length_append] at hlength
        omega
      obtain ⟨segments, left, hdivided, hstuck, hscan⟩ := ih _ hshorter (before ++ u) v rfl
      refine ⟨⟨best.1, before, u⟩ :: segments, left, .next hcuts hdivided, hstuck, ?_⟩
      rw [scan_cuts _ hcuts, Position.advance_behind, hscan, List.map_cons, List.flatten_cons, ← List.append_assoc]
      congr 1
      rw [List.filterMap_cons]
      cases htoken : Segment.token? ⟨best.1, before, u⟩ with
      | none =>
        rw [Segment.token?] at htoken
        rw [htoken]
        rfl
      | some t =>
        rw [Segment.token?] at htoken
        rw [htoken]
        rfl

end Lexed

theorem Segment.token?_place {s : Segment} {t : Token} (h : s.token? = some t) (hs : s.text ∈ s.rule.language) :
    t.position.offset = s.before.length ∧ t.stop = s.before.length + s.text.length - 1 := by
  obtain ⟨r, before, text⟩ := s
  cases r with
  | blank => cases h
  | comment => cases h
  | token k =>
    cases h
    have hk : k ≠ .eof := by
      rintro rfl
      exact LexicalRule.notMem_eof hs
    simp [Token.stop, Token.width, Position.behind, hk]

theorem Divided.mem_language {before cs left : List Char} {segments : List Segment}
    (h : Divided before cs segments left) : ∀ s ∈ segments, s.text ∈ s.rule.language := by
  induction h with
  | stop before left => exact fun _ hs => nomatch hs
  | next hu hv ih => exact List.forall_mem_cons.mpr ⟨hu.mem, ih⟩

theorem Lexed.ofString_mem_language (text : String) :
    ∀ t ∈ (ofString text).tokens, t.text.toList ∈ (LexicalRule.token t.kind).language := by
  obtain ⟨segments, left, hdivided, -, hscan⟩ := scan_divided [] text.toList
  intro t ht
  have htokens : (ofString text).tokens = segments.filterMap Segment.token? := congrArg Lexed.tokens hscan
  rw [htokens] at ht
  obtain ⟨⟨r, before, u⟩, hs, hst⟩ := List.mem_filterMap.mp ht
  have hu := hdivided.mem_language _ hs
  cases r with
  | token k =>
    cases hst
    rwa [String.toList_ofList]
  | blank => cases hst
  | comment => cases hst

open LexicalRule in
/-- The tokens of a text are the segments that it is cut into by the longest matches of the lexical rules, and
behind them stands the end of the text; a text has a fault exactly where no rule matches before its end. -/
theorem lexing_by_longest_match (text : String) :
    ∃ segments left, Divided [] text.toList segments left ∧ Stuck left ∧
      (segments.map Segment.text).flatten ++ left = text.toList ∧
      (∀ segments' left', Divided [] text.toList segments' left' → Stuck left' →
        segments' = segments ∧ left' = left) ∧
      (Lexed.ofString text).tokens = segments.filterMap Segment.token? ∧
      (∀ s ∈ segments, ∀ t, s.token? = some t →
        t.position.offset = s.before.length ∧ t.stop = s.before.length + s.text.length - 1) ∧
      (left = [] → ∃ t, (Lexed.ofString text).ending.token = .ok t ∧ t.kind = .eof ∧
        t.position.offset = text.length ∧ t.stop = text.length - 1) ∧
      (left ≠ [] → ∃ e, (Lexed.ofString text).ending = .fault e ∧
        e.position = Position.behind (segments.map Segment.text).flatten) ∧
      ((∃ e, (Lexed.ofString text).ending = .fault e) ↔
        ∃ segments' left', Divided [] text.toList segments' left' ∧ left' ≠ [] ∧ Stuck left') ∧
      ∀ t ∈ (Lexed.ofString text).tokens, t.kind = .identifier → ∀ k : Kind, k.spelling? ≠ some t.text := by
  obtain ⟨segments, left, hdivided, hstuck, hscan⟩ := Lexed.scan_divided [] text.toList
  have hlexed : Lexed.ofString text =
      ⟨segments.filterMap Segment.token?, Lexed.endingAt (segments.map Segment.text).flatten left⟩ := hscan
  have hunique := fun segments' left' (h : Divided [] text.toList segments' left') hstuck' =>
    hdivided.unique h hstuck hstuck'
  have hfault : left ≠ [] → ∃ e, (Lexed.ofString text).ending = .fault e ∧
      e.position = Position.behind (segments.map Segment.text).flatten := by
    intro hne
    rw [hlexed, Lexed.endingAt]
    · exact ⟨_, rfl, rfl⟩
    · exact hne
  refine ⟨segments, left, hdivided, hstuck, hdivided.append_eq, hunique, by rw [hlexed], ?_, ?_, hfault, ?_, ?_⟩
  · intro s hs t ht
    exact Segment.token?_place ht (hdivided.mem_language s hs)
  · rintro rfl
    have htext := hdivided.append_eq
    rw [List.append_nil] at htext
    rw [hlexed, Lexed.endingAt, htext]
    refine ⟨_, rfl, rfl, String.length_toList, ?_⟩
    simp only [Token.stop, Token.width, Token.eof, Lexeme.eof, Position.behind, String.length_toList, if_pos]
    omega
  · constructor
    · rintro ⟨e, he⟩
      refine ⟨segments, left, hdivided, ?_, hstuck⟩
      rintro rfl
      rw [hlexed] at he
      cases he
    · rintro ⟨segments', left', hdivided', hne, hstuck'⟩
      obtain ⟨rfl, rfl⟩ := hunique segments' left' hdivided' hstuck'
      obtain ⟨e, he, -⟩ := hfault hne
      exact ⟨e, he⟩
  · intro t ht hkind k hk
    have hnone := (Lexed.ofString_spelt text t ht).of_identifier hkind
    have hother := List.find?_eq_none.mp hnone k (Kind.mem_literals hk)
    exact hother (beq_iff_eq.mpr hk)

end CompiScript
