import CompiScript.Proofs.Segments

namespace CompiScript

namespace LexicalRule

variable {r s : LexicalRule} {k : Kind} {c : Char} {u v w : List Char}

theorem mem_of_concat_eq {d : Char} (h : u ++ [c] = v ++ d :: w) (hw : w ≠ []) : d ∈ u := by
  have hlast := congrArg List.dropLast h
  rw [List.dropLast_concat, List.dropLast_append_of_ne_nil (List.cons_ne_nil d w),
    List.dropLast_cons_of_ne_nil hw] at hlast
  simp [hlast]

theorem Cuts.restrict (h : r.Cuts u v) : r.Cuts u [] := by
  refine ⟨h.nonempty, h.mem, fun s x hx => h.longest s x ?_, h.earliest⟩
  rw [List.append_nil] at hx
  exact hx.trans (List.prefix_append u v)

theorem isBlank_of_mem (h : c :: w ∈ (token k).language) : isBlank c = false := by
  by_cases hk : k = .string
  · subst hk
    obtain ⟨body, -, hw⟩ := mem_string.mp h
    rw [(List.cons.inj hw).1]
    rfl
  · have hc := isSpecial_of_mem h hk c (.head _)
    simp only [isSpecial, Bool.or_eq_false_iff] at hc
    exact hc.1.1

theorem eq_blank_of_mem (h : c :: w ∈ s.language) (hc : isBlank c = true) : s = blank := by
  cases s with
  | blank => rfl
  | token k =>
    rw [isBlank_of_mem h] at hc
    cases hc
  | comment =>
    obtain ⟨line, -, hw | hw⟩ := mem_comment.mp h
    all_goals
      rw [(List.cons.inj hw).1] at hc
      cases hc

theorem eq_comment_of_mem (h : '/' :: '/' :: w ∈ s.language) : s = comment := by
  cases s with
  | comment => rfl
  | token k => exact absurd (eq_nil_of_slash h) (List.cons_ne_nil _ _)
  | blank => cases (mem_blank.mp h).2 '/' (.head _)

theorem blank_cuts (hne : u ≠ []) (hu : ∀ c ∈ u, isBlank c = true)
    (hv : ∀ c w, v = c :: w → isBlank c = false) : blank.Cuts u v := by
  obtain ⟨c, rest, rfl⟩ := List.exists_cons_of_ne_nil hne
  have hc := hu c (.head _)
  refine ⟨hne, mem_blank.mpr ⟨hne, hu⟩, ?_, ?_⟩
  · rintro s x ⟨y, hy⟩ hx
    by_contra hlt
    obtain ⟨d, x, rfl⟩ := List.exists_cons_of_ne_nil (ne_nil_of_mem hx)
    obtain rfl : d = c := (List.cons.inj hy).1
    obtain rfl := eq_blank_of_mem hx hc
    -- The first character behind the blanks would be one of them.
    rcases List.append_eq_append_iff.mp hy with ⟨z, hz, -⟩ | ⟨z, hz, hz'⟩
    · rw [hz, List.length_append] at hlt
      omega
    · cases z with
      | nil =>
        rw [hz, List.append_nil] at hlt
        omega
      | cons e z =>
        have he := (mem_blank.mp hx).2 e (by simp [hz])
        rw [hv e (z ++ y) hz'] at he
        cases he
  · intro s hs
    rw [eq_blank_of_mem hs hc]

theorem comment_cuts {line : List Char} (hline : ∀ c ∈ line, c ≠ '\n') (v : List Char) :
    comment.Cuts ('/' :: '/' :: line ++ ['\n']) v := by
  refine ⟨List.cons_ne_nil _ _, mem_comment.mpr ⟨line, hline, .inr rfl⟩, ?_, ?_⟩
  · intro s x hx hmem
    by_contra hlt
    obtain ⟨y, rfl⟩ := List.prefix_of_prefix_length_le (List.prefix_append _ v) hx (by omega)
    obtain rfl : s = comment := eq_comment_of_mem (by simpa using hmem)
    have hy : y ≠ [] := by
      rintro rfl
      rw [List.append_nil] at hlt
      omega
    obtain ⟨line', hline', hw⟩ := mem_comment.mp hmem
    -- The line feed that ends the one comment would stand inside the other.
    refine hline' '\n' ?_ rfl
    rcases hw with hw | hw
    · simp only [List.cons_append, List.append_assoc, List.cons.injEq, true_and] at hw
      rw [← hw]
      simp
    · simp only [List.cons_append, List.append_assoc, List.cons.injEq, true_and, List.nil_append] at hw
      exact mem_of_concat_eq hw.symm hy
  · intro s hs
    rw [eq_comment_of_mem hs]

theorem Cuts.eq_nil_of_open {line : List Char} (h : comment.Cuts ('/' :: '/' :: line) v)
    (hline : ∀ c ∈ line, c ≠ '\n') : v = [] := by
  by_contra hne
  obtain ⟨c, w, rfl⟩ := List.exists_cons_of_ne_nil hne
  have hmem : '/' :: '/' :: line ++ [c] ∈ comment.language := by
    by_cases hc : c = '\n'
    · exact mem_comment.mpr ⟨line, hline, .inr (by rw [hc])⟩
    · refine mem_comment.mpr ⟨line ++ [c], ?_, .inl rfl⟩
      intro d hd
      rcases List.mem_append.mp hd with hd | hd
      · exact hline d hd
      · rwa [List.mem_singleton.mp hd]
  have hlonger := h.longest comment _ (by simp) hmem
  rw [List.length_append, List.length_singleton] at hlonger
  omega

theorem Cuts.extend (h : (token k).Cuts u v) (hc : isBlank c = true) (w : List Char) :
    (token k).Cuts u (v ++ c :: w) := by
  refine ⟨h.nonempty, h.mem, ?_, h.earliest⟩
  intro s x hx hmem
  by_contra hlt
  have hlong : u.length + v.length < x.length := by
    by_contra hshort
    have hprefix : x <+: u ++ v := by
      refine List.prefix_of_prefix_length_le hx ?_ (by rw [List.length_append]; omega)
      exact (List.prefix_append_right_inj u).mpr (List.prefix_append v _)
    exact hlt (h.longest s x hprefix hmem)
  obtain ⟨y, rfl⟩ : ∃ y, x = u ++ (v ++ c :: y) := by
    have hprefix : u ++ (v ++ [c]) <+: x := by
      refine List.prefix_of_prefix_length_le ?_ hx (by simp only [List.length_append, List.length_singleton]; omega)
      refine (List.prefix_append_right_inj u).mpr ((List.prefix_append_right_inj v).mpr ?_)
      exact List.cons_prefix_cons.mpr ⟨rfl, List.nil_prefix⟩
    obtain ⟨y, rfl⟩ := hprefix
    exact ⟨y, by simp⟩
  obtain ⟨d, rest, rfl⟩ := List.exists_cons_of_ne_nil h.nonempty
  cases s with
  | blank =>
    have hd := (mem_blank.mp hmem).2 d (.head _)
    rw [isBlank_of_mem h.mem] at hd
    cases hd
  | comment =>
    obtain ⟨line, -, hline⟩ := mem_comment.mp hmem
    obtain ⟨tail, htail⟩ : ∃ tail, d :: rest ++ (v ++ c :: y) = '/' :: '/' :: tail := by
      rcases hline with hline | hline
      · exact ⟨line, hline⟩
      · exact ⟨line ++ ['\n'], hline⟩
    obtain ⟨rfl, hsecond⟩ := List.cons.inj htail
    obtain rfl := eq_nil_of_slash h.mem
    cases v with
    | nil =>
      obtain ⟨rfl, -⟩ := List.cons.inj hsecond
      cases hc
    | cons e v =>
      obtain ⟨rfl, -⟩ := List.cons.inj hsecond
      have hle := h.longest comment ['/', '/'] (by simp) (mem_comment.mpr ⟨[], by simp, .inl rfl⟩)
      simp at hle
  | token l =>
    by_cases hl : l = .string
    · subst hl
      obtain ⟨body, hbody, hw⟩ := mem_string.mp hmem
      obtain ⟨rfl, hends⟩ : d = '\"' ∧ rest ++ (v ++ c :: y) = body ++ ['\"'] := List.cons.inj hw
      have hk : k = .string := by
        by_contra hk
        cases isSpecial_of_mem h.mem hk _ (.head _)
      subst hk
      obtain ⟨body', -, hu⟩ := mem_string.mp h.mem
      obtain rfl : rest = body' ++ ['\"'] := (List.cons.inj hu).2
      rw [List.append_assoc] at hends
      -- The mark that ends the one string would stand inside the other.
      cases hbody '\"' (mem_of_concat_eq hends.symm (by simp))
    · have hordinary := isSpecial_of_mem hmem hl c (by simp)
      simp [isSpecial, hc] at hordinary

end LexicalRule

/-- The text is cut to its end, and these are the tokens in it, wherever the text may stand. -/
inductive Lexes : List Char → List Lexeme → Prop
  | done : Lexes [] []
  | token {k : Kind} {u v : List Char} {xs : List Lexeme} (hu : (LexicalRule.token k).Cuts u v) (hv : Lexes v xs) :
      Lexes (u ++ v) (⟨k, String.ofList u⟩ :: xs)
  | blank {u v : List Char} {xs : List Lexeme} (hu : LexicalRule.blank.Cuts u v) (hv : Lexes v xs) : Lexes (u ++ v) xs
  | comment {u v : List Char} {xs : List Lexeme} (hu : LexicalRule.comment.Cuts u v) (hv : Lexes v xs) :
      Lexes (u ++ v) xs

namespace Lexes

variable {a b u v cs : List Char} {xs ys : List Lexeme} {k : Kind}

theorem eq_nil (h : Lexes [] xs) : xs = [] := by
  generalize hcs : [] = cs at h
  cases h with
  | done => rfl
  | token hu hv => exact absurd (List.append_eq_nil_iff.mp hcs.symm).1 hu.nonempty
  | blank hu hv => exact absurd (List.append_eq_nil_iff.mp hcs.symm).1 hu.nonempty
  | comment hu hv => exact absurd (List.append_eq_nil_iff.mp hcs.symm).1 hu.nonempty

theorem scan (h : Lexes cs xs) (p : Position) :
    ∃ q, (Lexed.scan p cs).ending = .finish q ∧ (Lexed.scan p cs).tokens.map Token.toLexeme = xs := by
  induction h generalizing p with
  | done => exact ⟨p, by rw [Lexed.scan], by rw [Lexed.scan]; rfl⟩
  | @token k u v xs hu hv ih =>
    obtain ⟨q, hending, htokens⟩ := ih (p.advance u)
    rw [Lexed.scan_cuts p hu]
    exact ⟨q, hending, congrArg (_ :: ·) htokens⟩
  | @blank u v xs hu hv ih =>
    rw [Lexed.scan_cuts p hu]
    exact ih (p.advance u)
  | @comment u v xs hu hv ih =>
    rw [Lexed.scan_cuts p hu]
    exact ih (p.advance u)

theorem of_divided {before left : List Char} {segments : List Segment} (h : Divided before cs segments left)
    (hleft : left = []) : Lexes cs ((segments.filterMap Segment.token?).map Token.toLexeme) := by
  induction h with
  | stop before left =>
    subst hleft
    exact .done
  | @next before u v left r segments hu hv ih =>
    cases r with
    | token k => exact .token hu (ih hleft)
    | blank => exact .blank hu (ih hleft)
    | comment => exact .comment hu (ih hleft)

theorem of_finish {text : String} {p : Position} (h : (Lexed.ofString text).ending = .finish p) :
    Lexes text.toList ((Lexed.ofString text).tokens.map Token.toLexeme) := by
  obtain ⟨segments, left, hdivided, -, hscan⟩ := Lexed.scan_divided [] text.toList
  have hlexed : Lexed.ofString text =
      ⟨segments.filterMap Segment.token?, Lexed.endingAt (segments.map Segment.text).flatten left⟩ := hscan
  rw [hlexed] at h ⊢
  cases left with
  | nil => exact of_divided hdivided rfl
  | cons c left => cases h

theorem cuts_of_mem (h : Lexes cs xs) : ∀ x ∈ xs, (LexicalRule.token x.kind).Cuts x.text.toList [] := by
  induction h with
  | done => exact fun _ hx => nomatch hx
  | token hu hv ih =>
    refine List.forall_mem_cons.mpr ⟨?_, ih⟩
    rw [String.toList_ofList]
    exact hu.restrict
  | blank hu hv ih => exact ih
  | comment hu hv ih => exact ih

theorem blanks_append (hne : b ≠ []) (hb : ∀ c ∈ b, LexicalRule.isBlank c = true) (h : Lexes cs xs) :
    Lexes (b ++ cs) xs := by
  cases h with
  | done => exact .blank (LexicalRule.blank_cuts hne hb nofun) .done
  | @token k u v xs hu hv =>
    refine .blank (LexicalRule.blank_cuts hne hb ?_) (.token hu hv)
    intro c w hcw
    obtain ⟨d, rest, rfl⟩ := List.exists_cons_of_ne_nil hu.nonempty
    obtain ⟨rfl, -⟩ := List.cons.inj hcw
    exact LexicalRule.isBlank_of_mem hu.mem
  | @comment u v xs hu hv =>
    refine .blank (LexicalRule.blank_cuts hne hb ?_) (.comment hu hv)
    intro c w hcw
    obtain ⟨line, -, rfl | rfl⟩ := LexicalRule.mem_comment.mp hu.mem
    all_goals
      rw [← (List.cons.inj hcw).1]
      rfl
  | @blank u v xs hu hv =>
    rw [← List.append_assoc]
    refine .blank (LexicalRule.blank_cuts (by simp [hne]) ?_ ?_) hv
    · intro c hc
      rcases List.mem_append.mp hc with hc | hc
      · exact hb c hc
      · exact (LexicalRule.mem_blank.mp hu.mem).2 c hc
    · rintro c w rfl
      -- Otherwise the blanks at the head of the text would have been cut off with one more.
      by_contra hc
      have hlonger := hu.longest .blank (u ++ [c]) (by simp) (LexicalRule.mem_blank.mpr ⟨by simp, ?_⟩)
      · rw [List.length_append, List.length_singleton] at hlonger
        omega
      · intro d hd
        rcases List.mem_append.mp hd with hd | hd
        · exact (LexicalRule.mem_blank.mp hu.mem).2 d hd
        · rw [List.mem_singleton.mp hd]
          exact (Bool.not_eq_false _).mp hc

theorem append (ha : Lexes a xs) (hb : Lexes b ys) : Lexes (a ++ '\n' :: b) (xs ++ ys) := by
  induction ha with
  | done => exact blanks_append (b := ['\n']) (List.cons_ne_nil _ _) (List.forall_mem_singleton.mpr rfl) hb
  | @token k u v xs hu hv ih =>
    rw [List.append_assoc]
    exact .token (hu.extend rfl b) ih
  | @blank u v xs hu hv ih =>
    rw [List.append_assoc]
    exact blanks_append hu.nonempty (LexicalRule.mem_blank.mp hu.mem).2 ih
  | @comment u v xs hu hv ih =>
    obtain ⟨line, hline, rfl | rfl⟩ := LexicalRule.mem_comment.mp hu.mem
    · obtain rfl := hu.eq_nil_of_open hline
      obtain rfl := hv.eq_nil
      have hcomment := Lexes.comment (LexicalRule.comment_cuts hline b) hb
      simpa using hcomment
    · rw [List.append_assoc]
      exact .comment (LexicalRule.comment_cuts hline _) ih

theorem intercalate (h : ∀ x ∈ xs, (LexicalRule.token x.kind).Cuts x.text.toList []) :
    Lexes ([' '].intercalate (xs.map (·.text.toList))) xs := by
  induction xs with
  | nil => exact .done
  | cons x xs ih =>
    obtain ⟨hx, hxs⟩ := List.forall_mem_cons.mp h
    cases xs with
    | nil =>
      have hone := Lexes.token hx .done
      rw [String.ofList_toList, List.append_nil] at hone
      simpa using hone
    | cons y ys =>
      have hspace := blanks_append (b := [' ']) (List.cons_ne_nil _ _) (List.forall_mem_singleton.mpr rfl) (ih hxs)
      have hcuts := hx.extend (c := ' ') rfl ([' '].intercalate ((y :: ys).map (·.text.toList)))
      have hall := Lexes.token hcuts hspace
      rw [String.ofList_toList] at hall
      simpa [List.intercalate_cons_cons] using hall

end Lexes

end CompiScript
