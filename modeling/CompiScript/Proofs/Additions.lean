import CompiScript.Proofs.Replacement
import CompiScript.Proofs.Uniqueness

namespace CompiScript

theorem Entity.isLike_eq_belongs (e : Entity) {model : Entity} (h : model.belongs .objects = true) :
    e.isLike model = e.belongs model.narrowest := by
  cases model with
  | category c => cases h
  | _ => rfl

namespace Table

variable {t : Table} {x : String}

theorem put_eq_append (h : t.lookup x = none) (s : Symbol) : t.put x s = t ++ [(x, s)] := by
  induction t with
  | nil => rfl
  | cons e t ih =>
    obtain ⟨n, old⟩ := e
    obtain ⟨hn, ht⟩ := List.forall_mem_cons.mp (List.lookup_eq_none_iff.mp h)
    have hne : n ≠ x := fun heq => by simp [heq] at hn
    rw [put, if_neg hne, ih (List.lookup_eq_none_iff.mpr ht), List.cons_append]

theorem lookup_eq_none_of_not_mem (h : x ∉ t.names) : t.lookup x = none := by
  cases hlookup : t.lookup x with
  | none => rfl
  | some s => exact absurd (List.mem_map_of_mem (mem_of_lookup_eq_some hlookup)) h

theorem add_of_mem {s : Symbol} (h : s.entity.belongs .objects = true) (hmem : s.name ∈ t.names) :
    t.add s = .error .taken := by
  cases hlookup : t.lookup s.name with
  | none => exact absurd hmem (not_mem_names hlookup)
  | some old =>
    rw [add, hlookup]
    cases hentity : s.entity with
    | category c =>
      rw [hentity] at h
      cases h
    | _ => rfl

theorem add_of_not_mem {s : Symbol} (h : s.name ∉ t.names) : t.add s = .ok (t ++ [(s.name, s)]) := by
  have hlookup := lookup_eq_none_of_not_mem h
  rw [add, hlookup, put_eq_append hlookup]

end Table

def Symbol.refusal (s : Symbol) : SymbolError :=
  match s.entity.describe with
  | .ok description => .duplicate s.name description
  | .error e => e

namespace Scopes

def Clashes (s : Scopes) (symbol : Symbol) : Prop :=
  ∃ f ∈ s.chain, ∃ old, f.table.lookup symbol.name = some old ∧ old.entity.belongs symbol.entity.narrowest = true

def append (s : Scopes) (symbol : Symbol) : Scopes :=
  { s with current := { s.current with table := s.current.table ++ [(symbol.name, symbol)] } }

variable {s : Scopes} {symbol : Symbol}

theorem takenIn_iff_clashes (h : symbol.entity.belongs .objects = true) :
    takenIn s.chain symbol.name symbol.entity = true ↔ s.Clashes symbol := by
  rw [Clashes]
  induction s.chain with
  | nil => simp [takenIn]
  | cons f fs ih =>
    simp only [takenIn, Bool.or_eq_true, ih, List.mem_cons, exists_eq_or_imp]
    apply or_congr _ Iff.rfl
    cases f.table.lookup symbol.name with
    | none => simp
    | some old => simp [old.entity.isLike_eq_belongs h]

theorem add_of_clashes (h : symbol.entity.belongs .objects = true) (hclash : s.Clashes symbol) :
    s.add symbol = .error symbol.refusal := by
  have htaken : takenIn (s.current :: s.outer) symbol.name symbol.entity = true := (takenIn_iff_clashes h).mpr hclash
  simp only [add, Frame.add, htaken, if_true, Symbol.refusal]
  cases symbol.entity.describe <;> rfl

theorem add_of_not_clashes (h : symbol.entity.belongs .objects = true) (hclash : ¬s.Clashes symbol) :
    s.add symbol = (s.current.table.add symbol).map fun table =>
      { s with current := { s.current with table := table } } := by
  have htaken : takenIn (s.current :: s.outer) symbol.name symbol.entity = false :=
    Bool.eq_false_iff.mpr fun htrue => hclash ((takenIn_iff_clashes h).mp htrue)
  simp only [add, Frame.add, htaken]
  cases s.current.table.add symbol <;> rfl

theorem add_cases (h : symbol.entity.belongs .objects = true) :
    s.Clashes symbol ∧ s.add symbol = .error symbol.refusal ∨
      ¬s.Clashes symbol ∧ symbol.name ∈ s.current.table.names ∧ s.add symbol = .error .taken ∨
      ¬s.Clashes symbol ∧ symbol.name ∉ s.current.table.names ∧ s.add symbol = .ok (s.append symbol) := by
  by_cases hclash : s.Clashes symbol
  · exact .inl ⟨hclash, add_of_clashes h hclash⟩
  · rw [add_of_not_clashes h hclash]
    by_cases hmem : symbol.name ∈ s.current.table.names
    · rw [Table.add_of_mem h hmem]
      exact .inr (.inl ⟨hclash, hmem, rfl⟩)
    · rw [Table.add_of_not_mem hmem]
      exact .inr (.inr ⟨hclash, hmem, rfl⟩)

theorem tables_append (s : Scopes) (symbol : Symbol) :
    (s.append symbol).tables = s.tables.set s.links.current (s.current.table ++ [(symbol.name, symbol)]) := by
  have hhere : s.links.current = (chainTables s.outer).length := s.length_chainTables_outer.symm
  rw [tables_eq, tables_eq, chain, chain, chainTables, chainTables, hhere, List.set_append_right _ _ (Nat.le_refl _),
    Nat.sub_self]
  rfl

end Scopes

/-- An instance is added exactly where no open scope has its name for an instance of its class and the current table
does not have its name at all. Then it is the last entry of the current table, and this is all that changes; in the
other cases nothing does, also where the refusal cannot be put into words. -/
theorem addition_exact (s : Scopes) {symbol : Symbol} (h : symbol.entity.belongs .objects = true) :
    let call := ScopeCall.add symbol
    ((∃ answer, (call.run s).1 = .ok answer) ↔ ¬s.Clashes symbol ∧ symbol.name ∉ s.current.table.names) ∧
    (¬s.Clashes symbol → symbol.name ∉ s.current.table.names →
      call.run s = (.ok none, s.append symbol) ∧ (s.append symbol).links = s.links ∧
        s.tables[s.links.current]? = some s.current.table ∧
        (s.append symbol).tables = s.tables.set s.links.current (s.current.table ++ [(symbol.name, symbol)])) ∧
    (s.Clashes symbol → call.run s = (.error symbol.refusal, s)) ∧
    (¬s.Clashes symbol → symbol.name ∈ s.current.table.names → call.run s = (.error .taken, s)) ∧
    ∀ st : AnalysisState, st.scopes = s →
      (Analysis.tryScopes fun s => s.add symbol).runFrom st =
        match call.run s with
        | (.ok _, s') => (.ok (), { st with scopes := s' })
        | (.error e, _) => (.error (.symbol e), st) := by
  intro call
  have haccepted : ∀ s', s.add symbol = .ok s' → call.run s = (.ok none, s') := by
    intro s' hadd
    simp only [call, ScopeCall.run, hadd]
  have hrefused : ∀ e, s.add symbol = .error e → call.run s = (.error e, s) := by
    intro e hadd
    simp only [call, ScopeCall.run, hadd]
  have hanalysis : ∀ st : AnalysisState, st.scopes = s →
      (Analysis.tryScopes fun s => s.add symbol).runFrom st =
        match call.run s with
        | (.ok _, s') => (.ok (), { st with scopes := s' })
        | (.error e, _) => (.error (.symbol e), st) := by
    rintro st rfl
    cases hadd : st.scopes.add symbol with
    | ok s' => simp only [Analysis.runFrom_tryScopes, haccepted s' hadd, hadd]
    | error e => simp only [Analysis.runFrom_tryScopes, hrefused e hadd, hadd]
  rcases s.add_cases h with ⟨hclash, hadd⟩ | ⟨hclash, hmem, hadd⟩ | ⟨hclash, hfree, hadd⟩
  · have hrun := hrefused _ hadd
    refine ⟨⟨?_, fun hnone => absurd hclash hnone.1⟩, fun hnone => absurd hclash hnone, fun _ => hrun,
      fun hnone => absurd hclash hnone, hanalysis⟩
    rintro ⟨answer, hanswer⟩
    rw [hrun] at hanswer
    cases hanswer
  · have hrun := hrefused _ hadd
    refine ⟨⟨?_, fun hnone => absurd hmem hnone.2⟩, fun _ hnot => absurd hmem hnot, fun hsome => absurd hsome hclash,
      fun _ _ => hrun, hanalysis⟩
    rintro ⟨answer, hanswer⟩
    rw [hrun] at hanswer
    cases hanswer
  · have hrun := haccepted _ hadd
    refine ⟨⟨fun _ => ⟨hclash, hfree⟩, fun _ => ⟨none, congrArg Prod.fst hrun⟩⟩, fun _ _ => ?_,
      fun hsome => absurd hsome hclash, fun _ hmem => absurd hmem hfree, hanalysis⟩
    exact ⟨hrun, Scopes.links_add hadd, s.tables_here, s.tables_append symbol⟩

theorem addition_exact_of_function :
    let f := Symbol.ofEntity "f" (.function none none)
    let x := Symbol.ofEntity "f" (.variable (some Ty.num))
    let s := ScopeCall.runAll [.add f] .start
    let inner := s.enter "b"
    (ScopeCall.add x).run inner = (.ok none, inner.append x) ∧
      (ScopeCall.add f).run inner = (.error .noParameters, inner) ∧
      (ScopeCall.add x).run s = (.error .taken, s) ∧
      (ScopeCall.add x).run (inner.append x) = (.error (.duplicate "f" "variable (num)"), inner.append x) := by
  intro f x s inner
  have hx : ¬s.Clashes x := by
    rintro ⟨frame, hframe, old, hold, hbelongs⟩
    rw [List.mem_singleton.mp hframe] at hold
    cases hold
    cases hbelongs
  have hinner : ¬inner.Clashes x := by
    rintro ⟨frame, hframe, old, hold, hbelongs⟩
    rcases List.mem_cons.mp hframe with rfl | houter
    · cases hold
    · exact hx ⟨frame, houter, old, hold, hbelongs⟩
  have hf : inner.Clashes f := ⟨s.current, .tail _ (.head _), f, rfl, rfl⟩
  have htwice : (inner.append x).Clashes x := ⟨_, .head _, x, rfl, rfl⟩
  exact ⟨((addition_exact inner rfl).2.1 hinner (by decide)).1, (addition_exact inner rfl).2.2.1 hf,
    (addition_exact s rfl).2.2.2.1 hx (by decide), (addition_exact (inner.append x) rfl).2.2.1 htwice⟩

end CompiScript
