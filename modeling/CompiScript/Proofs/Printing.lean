import CompiScript.Proofs.Reading.Statements
import CompiScript.Proofs.Relabelling
import CompiScript.Proofs.Separation

namespace CompiScript

def Lexeme.printed (xs : List Lexeme) : String :=
  " ".intercalate (xs.map Lexeme.text)

def Tree.printed (t : Tree) : String :=
  Lexeme.printed (t.leaves.filter (·.kind ≠ .eof))

mutual

theorem Tree.relabel_id (t : Tree) : t.relabel id = t := by
  cases t with
  | leaf x => rfl
  | node r cs => rw [relabel, relabelAll_id cs]

theorem Tree.relabelAll_id (ts : List Tree) : relabelAll id ts = ts := by
  cases ts with
  | nil => rfl
  | cons t ts => rw [relabelAll, t.relabel_id, relabelAll_id ts]

end

theorem lexes_printed {cs : List Char} {xs : List Lexeme} (h : Lexes cs xs) : Lexes (Lexeme.printed xs).toList xs := by
  have hprinted := Lexes.intercalate h.cuts_of_mem
  rw [Lexeme.printed, String.toList_intercalate, List.map_map]
  exact hprinted

theorem ofString_printed {text : String} {p : Position} (h : (Lexed.ofString text).ending = .finish p) :
    ∃ q, (Lexed.ofString (Lexeme.printed ((Lexed.ofString text).tokens.map Token.toLexeme))).ending = .finish q ∧
      (Lexed.ofString (Lexeme.printed ((Lexed.ofString text).tokens.map Token.toLexeme))).tokens.map Token.toLexeme =
        (Lexed.ofString text).tokens.map Token.toLexeme :=
  (lexes_printed (Lexes.of_finish h)).scan .start

theorem filter_leaves_program {text : String} {d : Derived} (h : parseText .program text = .ok d) :
    d.tree.leaves.filter (·.kind ≠ .eof) = (Lexed.ofString text).tokens.map Token.toLexeme := by
  obtain ⟨p, q, -, hq, hrest, htree⟩ := parseText_declarations h
  obtain ⟨used, n, htokens, -, hleaves⟩ := (parse_reads _ _ _ _ _ q hq).covers
  rw [hrest, List.append_nil] at htokens
  subst htokens
  rw [htree, Tree.leaves, Tree.leavesAll_append, hleaves]
  have hkept : ∀ x ∈ (Lexed.ofString text).tokens.map Token.toLexeme, decide (x.kind ≠ .eof) = true := by
    intro x hx
    obtain ⟨t, ht, rfl⟩ := List.mem_map.mp hx
    exact decide_eq_true (Lexed.ofString_kind_ne_eof text t ht)
  rw [List.filter_append, List.filter_append, List.filter_eq_self.mpr hkept]
  simp [Tree.leavesAll, Tree.leaves, Lexeme.eof]

/-- A text that is written again from its tokens has the same tokens, and a program that is written again from the
leaves of its tree has the same tree. -/
theorem reading_printed (text : String) :
    (∀ p, (Lexed.ofString text).ending = .finish p →
      ∃ q, (Lexed.ofString (Lexeme.printed ((Lexed.ofString text).tokens.map Token.toLexeme))).ending = .finish q ∧
        (Lexed.ofString (Lexeme.printed ((Lexed.ofString text).tokens.map Token.toLexeme))).tokens.map Token.toLexeme =
          (Lexed.ofString text).tokens.map Token.toLexeme) ∧
      ∀ d, parseText .program text = .ok d → ∃ e, parseText .program d.tree.printed = .ok e ∧ e.tree = d.tree := by
  refine ⟨fun p h => ofString_printed h, fun d h => ?_⟩
  obtain ⟨p, hfinish⟩ := exists_finish_of_parseText h
  obtain ⟨q, hending, htokens⟩ := ofString_printed hfinish
  rw [Tree.printed, filter_leaves_program h]
  obtain ⟨e, he, htree, -⟩ := parseText_relabel (f := id) (fun _ => rfl) rfl h hending htokens
  exact ⟨e, he, by rw [htree, Tree.relabel_id]⟩

theorem reading_printed_without_comment : ∃ d e,
    parseText .program "print \"a // b\"+1.5/x;// end" = .ok d ∧
    d.tree.printed = "print \"a // b\" + 1.5 / x ;" ∧
    parseText .program "print \"a // b\" + 1.5 / x ;" = .ok e ∧ e.tree = d.tree := by
  obtain ⟨d, hd, hprinted⟩ := Syntax.exists_derived "print \"a // b\"+1.5/x;// end"
    (fun d => decide (d.tree.printed = "print \"a // b\" + 1.5 / x ;")) (by decide +kernel)
  have htext := of_decide_eq_true hprinted
  obtain ⟨e, he, htree⟩ := (reading_printed _).2 d hd
  rw [htext] at he
  exact ⟨d, e, hd, htext, he, htree⟩

end CompiScript
