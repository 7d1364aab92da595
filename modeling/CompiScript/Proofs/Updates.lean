import CompiScript.Proofs.Ownership
import CompiScript.Proofs.Reading.Statements

namespace CompiScript

open Syntax

theorem Analysis.runFrom_updateSymbol {s : AnalysisState} {r : Reference} {symbol : Symbol}
    (h : s.scopes.at? r = some symbol) :
    (updateSymbol r).runFrom s =
      match s.scopes.update r.name symbol (some .functions) with
      | .ok scopes => (.ok (), { s with scopes := scopes })
      | .error e => (.error (.symbol e), s) := by
  cases hupdate : s.scopes.update r.name symbol (some .functions) <;>
    simp only [updateSymbol, runFrom_tryScopes, h, hupdate]

namespace Scopes

variable {s s' : Scopes} {r : Reference} {x : String}

theorem tables_reference (s : Scopes) (x : String) : s.tables[(s.reference x).scope]? = some s.current.table := by
  rw [reference_eq]
  exact s.tables_here

theorem at?_reference (s : Scopes) (x : String) : s.at? (s.reference x) = s.current.table.lookup x := by
  rw [at?, chain, symbolAt]
  exact if_pos rfl

theorem Owns.tables {symbol : Symbol} (h : s.Owns r) (hr : s.find? r.name (some .functions) = some symbol) :
    ∃ t, s.tables[r.scope]? = some t ∧ t.lookup r.name = some symbol := by
  obtain ⟨t, found, ht, hfound, hfind⟩ := find?_home h
  rw [← Option.some.inj (hfind.symm.trans hr)]
  exact ⟨t, ht, (Table.find?_eq_some hfound).1⟩

end Scopes

/-- Where the visitor brings the symbol of a function up to date, the function is found by its name in the scope where it
was declared. So the visit of a tree comes to the same with everything that does nothing there, be it nothing at all,
and whatever it does elsewhere. What is found there is the symbol that was added, with all that has been noted of it,
and a symbol that is put in takes the place of this one and of no other. -/
theorem updates_reach_own_function (t : Tree) (s : AnalysisState) :
    (∀ update : Reference → Analysis Unit,
      (∀ r (st : AnalysisState), st.scopes.Owns r → (update r).runFrom st = (.ok (), st)) →
      (t.visitWith update .alone).runFrom s = s.analyse t) ∧
    (∀ (scopes scopes' : Scopes) (x : String),
      scopes.add (Symbol.ofEntity x (.function (some Ty.nil) none)) = .ok scopes' →
      scopes'.Owns (scopes'.reference x) ∧ scopes'.tables[(scopes'.reference x).scope]? = some scopes'.current.table ∧
      scopes'.at? (scopes'.reference x) = some (Symbol.ofEntity x (.function (some Ty.nil) none))) ∧
    ∀ (st : AnalysisState) (r : Reference) (symbol : Symbol), st.scopes.at? r = some symbol →
      ((Analysis.updateSymbol r).runFrom st =
        match st.scopes.update r.name symbol (some .functions) with
        | .ok scopes => (.ok (), { st with scopes := scopes })
        | .error e => (.error (.symbol e), st)) ∧
      (st.scopes.Owns r → st.scopes.find? r.name (some .functions) = some symbol ∧
        (∃ table, st.scopes.tables[r.scope]? = some table ∧ table.lookup r.name = some symbol) ∧
        (∀ new, st.scopes.update r.name new (some .functions) = .ok (st.scopes.changeAt r fun _ => new)) ∧
        st.scopes.changeAt r (fun _ => symbol) = st.scopes ∧ (Analysis.updateSymbol r).runFrom st = (.ok (), st)) := by
  refine ⟨?_, ?_, ?_⟩
  · intro update hupdate
    exact t.visitWith_eq hupdate fun _ h => by cases h
  · intro scopes scopes' x hadd
    have hdeclared : scopes.add (Symbol.ofEntity x Declared.function.entity) = .ok scopes' := hadd
    obtain ⟨-, -, rfl⟩ := Scopes.add_ok hdeclared
    refine ⟨scopes.owns_reference x, Scopes.tables_reference _ x, ?_⟩
    rw [Scopes.at?_reference, Scopes.declared, Table.lookup_put, if_pos rfl]
    rfl
  · intro st r symbol hr
    refine ⟨Analysis.runFrom_updateSymbol hr, fun howns => ?_⟩
    have hfind := howns.find?.trans hr
    exact ⟨hfind, howns.tables hfind, howns.update, Scopes.changeAt_at? hr, Analysis.updateSymbol_idle r st howns⟩

def namesakes : Program :=
  ⟨[.function (.named "g") none
      [.variable ⟨.named "g", none⟩, .statement (.giveBack (some (.ofPrimary (.number "1"))))],
    .function (.named "f") (some ⟨.named "f", []⟩) [],
    .function (.named "h") none [.statement (.giveBack none)]]⟩

def Analysis.refuse (x : String) (r : Reference) : Analysis Unit :=
  if r.name = x then throw (.absent x) else pure ()

theorem updates_reach_own_function_namesakes :
    (∃ d, parseText .program "fun g() { var g; return 1; } fun f(f) { } fun h() { return; }" = .ok d ∧
      (AnalysisState.start.analyse d.tree).1.isOk = true ∧
      (d.tree.visitWith (fun _ => pure ()) .alone).runFrom .start = AnalysisState.start.analyse d.tree ∧
      ∀ x ∈ ["g", "f", "h"], ((d.tree.visitWith (Analysis.refuse x) .alone).runFrom .start).1.isOk = false) ∧
    ∃ scopes, Scopes.start.add (Symbol.ofEntity "g" (.function (some Ty.nil) none)) = .ok scopes ∧
      scopes.Owns (scopes.reference "g") ∧
      ∀ new, scopes.update "g" new (some .functions) = .ok (scopes.changeAt (scopes.reference "g") fun _ => new) := by
  obtain ⟨d, hd, htree⟩ :=
    exists_derived_tree "fun g() { var g; return 1; } fun f(f) { } fun h() { return; }" namesakes (by decide +kernel)
  obtain ⟨hidle, hadded, hreached⟩ := updates_reach_own_function d.tree .start
  refine ⟨⟨d, hd, ?_, hidle _ fun _ _ _ => rfl, ?_⟩, Scopes.start.declared .function "g", rfl, ?_⟩
  · rw [← htree]
    decide +kernel
  · rw [← htree]
    decide +kernel
  · obtain ⟨howns, -, hat⟩ := hadded .start _ "g" rfl
    obtain ⟨-, -, hupdate, -⟩ := (hreached { AnalysisState.start with scopes := Scopes.start.declared .function "g" } _ _
      hat).2 howns
    exact ⟨howns, hupdate⟩

end CompiScript
