import CompiScript.Proofs.Returning.Places

namespace CompiScript

open Syntax Step

/-- In a program without an error, let a function have no parameters and be in no function that has some.
Every `return` in it stands directly in its body and gives back `nil` or the return type that its symbol
has at the end, which is `nil` or is given back; behind a value of a type other than `nil` only a bare
`return` may still give back something else. So all of them give back the return type exactly if it is
`nil` or none of them gives back `nil`. -/
theorem return_types_agree {text : String} {d : Derived} (h : parseText .program text = .ok d) :
    (∃ p : Program, p.tree = d.tree) ∧ ∀ p : Program, p.tree = d.tree →
      ∀ v s pl name body, AnalysisState.start.analyse d.tree = (.ok v, s) → p.Contains pl →
        pl.part = .function name none body → (∀ e ∈ pl.around, e.params = none) →
        ∃ g t, execute pl.before .start = (none, g) ∧
          s.scopes.returnsAt g.scopes.sketch.here name.text = some t ∧
          (∀ q value, pl.Belongs q → q.part = .statement (.giveBack value) → pl.InBody q ∧ ∃ u, q.Returns u) ∧
          (∀ q u, pl.Belongs q → q.Returns u → u = t ∨ u = some Ty.nil) ∧
          (t = some Ty.nil ∨ ∃ q, pl.Belongs q ∧ q.Returns t) ∧
          (∀ q r between u w, pl.Belongs q → pl.Belongs r → r.before = q.before ++ q.steps ++ between →
            q.ReturnsValue u → u ≠ some Ty.nil → r.ReturnsValue w → w = u) ∧
          ((∀ q u, pl.Belongs q → q.Returns u → u = t) ↔
            t = some Ty.nil ∨ ∀ q, pl.Belongs q → ¬q.Returns (some Ty.nil)) := by
  refine ⟨parseText_program h, ?_⟩
  intro p hp v s pl name body haccepted hpl hpart haround
  rw [← hp] at haccepted
  obtain ⟨gEnd, hrun, hstanding⟩ := execute_of_analyse haccepted
  have hscopes : s.scopes = gEnd.scopes := congrArg Standing.scopes hstanding
  have hsteps := hrun
  rw [hpl.steps_eq, List.append_assoc] at hsteps
  obtain ⟨g, hmet, -⟩ := execute_append_ok hsteps
  have hplain : p.Plain pl name body g gEnd := ⟨hpl, hpart, haround, hmet, hrun⟩
  obtain ⟨t, ht, hgiven⟩ := hplain.exists_returnsAt
  have hcases : ∀ q u, pl.Belongs q → q.Returns u → u = t ∨ u = some Ty.nil := by
    rintro q u hq (⟨-, rfl⟩ | hu)
    · exact .inr rfl
    · exact hplain.returnsValue_cases ht hq hu
  refine ⟨g, t, hmet, by rw [hscopes]; exact ht, ?_, hcases, ?_, ?_, ?_⟩
  · exact fun q value hq hreturn => ⟨hplain.inBody_of_giveBack hq hreturn, hplain.exists_returns hq hreturn⟩
  · exact hgiven.imp_right fun ⟨q, hq, hu⟩ => ⟨q, .body hq, .inr hu⟩
  · exact fun q r between u w hq hr hlater hu hknown hw => hplain.returnsValue_later hq hr hlater hu hknown hw
  · constructor
    · intro hall
      by_cases hnil : t = some Ty.nil
      · exact .inl hnil
      · exact .inr fun q hq hreturn => hnil (hall q _ hq hreturn).symm
    · rintro (hnil | hnever) q u hq hreturn
      · exact (hcases q u hq hreturn).elim id fun hu => hu.trans hnil.symm
      · refine (hcases q u hq hreturn).resolve_right ?_
        rintro rfl
        exact hnever q hq hreturn

def numberThenBare : List Declaration :=
  [.statement (.giveBack (some (.ofPrimary (.number "1")))), .statement (.giveBack none)]

theorem return_types_differ : ∃ d v s pl, parseText .program "fun f() { return 1; return; }" = .ok d ∧
    Program.tree ⟨[.function (.named "f") none numberThenBare]⟩ = d.tree ∧
      AnalysisState.start.analyse d.tree = (.ok v, s) ∧
      Program.Contains ⟨[.function (.named "f") none numberThenBare]⟩ pl ∧
      pl.part = .function (.named "f") none numberThenBare ∧
      s.scopes.returnsAt 0 "f" = some (some Ty.num) ∧ ¬∀ q u, pl.Belongs q → q.Returns u → u = some Ty.num := by
  let p : Program := ⟨[.function (.named "f") none numberThenBare]⟩
  let pl : Place := ⟨.function (.named "f") none numberThenBare, none, none, [], [], []⟩
  obtain ⟨d, hd, htree⟩ := exists_derived_tree "fun f() { return 1; return; }" p (by decide +kernel)
  have haccepted : (match AnalysisState.start.analyse p.tree with
      | (.ok _, s) => decide (s.scopes.returnsAt 0 "f" = some (some Ty.num))
      | _ => false) = true := by
    decide +kernel
  have hpl : p.Contains pl := @Program.Contains.top _ [] [] _ rfl
  have hbare : pl.Belongs (pl.member (.named "f") none [_] (.statement (.giveBack none)) []) :=
    .body (@Place.InBody.mk _ _ _ [.statement (.giveBack (some (.ofPrimary (.number "1"))))] [] _ rfl)
  rw [htree] at haccepted
  split at haccepted
  · next v s hrun =>
    have hnum := of_decide_eq_true haccepted
    obtain ⟨g, t, hmet, ht, -, -, -, -, hiff⟩ :=
      (return_types_agree hd).2 p htree v s pl (.named "f") numberThenBare hrun hpl rfl (fun _ he => nomatch he)
    cases hmet
    obtain rfl : t = some Ty.num := Option.some.inj (ht.symm.trans hnum)
    refine ⟨d, v, s, pl, hd, htree, hrun, hpl, rfl, hnum, ?_⟩
    intro hall
    rcases hiff.mp hall with hnil | hnever
    · cases hnil
    · exact hnever _ hbare (.inl ⟨rfl, rfl⟩)
  · cases haccepted

end CompiScript
