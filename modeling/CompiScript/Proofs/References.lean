import CompiScript.Proofs.Effects.Homes

namespace CompiScript

theorem Table.put_lookup {t : Table} {x : String} {s : Symbol} (h : t.lookup x = some s) : t.put x s = t := by
  induction t with
  | nil => cases h
  | cons e t ih =>
    obtain ⟨n, old⟩ := e
    simp only [List.lookup_cons] at h
    by_cases hn : n = x
    · subst hn
      simp only [beq_self_eq_true, Option.some.injEq] at h
      simp [put, h]
    · have hne : (x == n) = false := beq_eq_false_iff_ne.mpr fun heq => hn heq.symm
      simp only [hne] at h
      simp [put, hn, ih h]

mutual

theorem Scope.length_tables_eq_size : ∀ s : Scope, s.tables.length = s.size
  | .mk _ _ _ children => by
    rw [Scope.tables, List.length_cons, Scope.length_tablesAll_eq_sizes children, Scope.size]

theorem Scope.length_tablesAll_eq_sizes : ∀ ss : List Scope, (Scope.tablesAll ss).length = Scope.sizes ss
  | [] => rfl
  | s :: ss => by
    rw [Scope.tablesAll, List.length_append, s.length_tables_eq_size, Scope.length_tablesAll_eq_sizes ss, Scope.sizes]

end

theorem length_chainTables_eq_scopesIn (fs : List Frame) : (chainTables fs).length = scopesIn fs := by
  induction fs with
  | nil => rfl
  | cons f fs ih =>
    rw [chainTables, List.length_append, List.length_cons, ih, Scope.length_tablesAll_eq_sizes, scopesIn]

section Home

variable {c : Category} {r : Reference} {fs : List Frame}

theorem home_cases {f : Frame} (h : homeIn (f :: fs) r.name c = some r.scope) :
    (∃ s, f.table.find? r.name (some c) = some s ∧ scopesIn fs = r.scope) ∨
      f.table.find? r.name (some c) = none ∧ scopesIn fs ≠ r.scope ∧ homeIn fs r.name c = some r.scope := by
  rw [homeIn] at h
  cases hf : f.table.find? r.name (some c) with
  | some s =>
    rw [hf, Option.isSome_some, if_pos rfl, length_chainTables_eq_scopesIn] at h
    exact .inl ⟨s, rfl, Option.some.inj h⟩
  | none =>
    rw [hf, Option.isSome_none, if_neg Bool.false_ne_true] at h
    refine .inr ⟨rfl, ?_, h⟩
    rw [← length_chainTables_eq_scopesIn]
    exact Nat.ne_of_gt (homeIn_lt h)

theorem findIn_of_home (h : homeIn fs r.name c = some r.scope) :
    ∃ s, symbolAt r fs = some s ∧ findIn fs r.name (some c) = some s ∧ s.entity.belongs c = true := by
  induction fs with
  | nil => cases h
  | cons f fs ih =>
    obtain ⟨s, hf, hscope⟩ | ⟨hf, hne, h⟩ := home_cases h
    · obtain ⟨hlookup, hbelongs⟩ := Table.find?_eq_some hf
      exact ⟨s, by simp [symbolAt, hscope, hlookup], by simp [findIn, hf], hbelongs⟩
    · obtain ⟨s, hat, hfind, hbelongs⟩ := ih h
      exact ⟨s, by simp [symbolAt, hne, hat], by simp [findIn, hf, hfind], hbelongs⟩

theorem changeAt_of_home (h : homeIn fs r.name c = some r.scope) (change : Symbol → Symbol) :
    changeAt r change fs = changeIn r.name c change fs := by
  induction fs with
  | nil => rfl
  | cons f fs ih =>
    obtain ⟨s, hf, hscope⟩ | ⟨hf, hne, h⟩ := home_cases h
    · simp [changeAt, changeIn, hscope, hf, Table.change, (Table.find?_eq_some hf).1]
    · simp [changeAt, changeIn, hne, hf, ih h]

theorem replaceIn_of_home (h : homeIn fs r.name c = some r.scope) (new : Symbol) :
    Scopes.replaceIn fs r.name new (some c) = some (changeAt r (fun _ => new) fs) := by
  induction fs with
  | nil => cases h
  | cons f fs ih =>
    obtain ⟨s, hf, hscope⟩ | ⟨hf, hne, h⟩ := home_cases h
    · simp [changeAt, Scopes.replaceIn, hscope, hf, Table.change, (Table.find?_eq_some hf).1]
    · simp [changeAt, Scopes.replaceIn, hne, hf, ih h]

theorem changeAt_symbolAt {s : Symbol} (h : symbolAt r fs = some s) : changeAt r (fun _ => s) fs = fs := by
  induction fs with
  | nil => rfl
  | cons f fs ih =>
    rw [symbolAt] at h
    by_cases hd : scopesIn fs = r.scope
    · rw [if_pos hd] at h
      simp [changeAt, hd, Table.change, h, Table.put_lookup h]
    · rw [if_neg hd] at h
      simp [changeAt, hd, ih h]

theorem changeAt_outline {change : Symbol → Symbol} (hchange : ∀ s, (change s).entity = s.entity) (fs : List Frame) :
    (changeAt r change fs).map Frame.outline = fs.map Frame.outline := by
  induction fs with
  | nil => rfl
  | cons f fs ih =>
    rw [changeAt]
    split
    · have hkeys : (f.table.change r.name change).keys = f.table.keys := by
        rw [Table.change]
        split
        · rfl
        · next s hs => exact Table.keys_put_of_lookup_some hs (congrArg Entity.narrowest (hchange s))
      simp [Frame.outline, hkeys]
    · rw [List.map_cons, List.map_cons, ih]

end Home

namespace Scopes

/-- The first function of the reference's name, from the current scope outwards, is in the scope that the reference
names. -/
def Owns (s : Scopes) (r : Reference) : Prop :=
  s.home? r.name .functions = some r.scope

instance (s : Scopes) (r : Reference) : Decidable (s.Owns r) :=
  inferInstanceAs (Decidable (_ = _))

variable {s s' base : Scopes} {r : Reference} {n : Nat}

theorem Owns.mem_opened (h : s.Owns r) : r.scope ∈ s.sketch.opened :=
  homeIn_mem h

theorem Owns.exists_symbol (h : s.Owns r) : ∃ symbol, s.at? r = some symbol ∧
    s.find? r.name (some .functions) = some symbol ∧ symbol.entity.belongs .functions = true :=
  findIn_of_home h

theorem Owns.find? (h : s.Owns r) : s.find? r.name (some .functions) = s.at? r := by
  obtain ⟨symbol, hat, hfind, -⟩ := h.exists_symbol
  rw [hat, hfind]

theorem Owns.changeAt (h : s.Owns r) (change : Symbol → Symbol) :
    s.changeAt r change = s.withChain (changeIn r.name .functions change s.chain) := by
  rw [Scopes.changeAt, changeAt_of_home h]

theorem Owns.update (h : s.Owns r) (new : Symbol) :
    s.update r.name new (some .functions) = .ok (s.changeAt r fun _ => new) := by
  rw [Scopes.update, replaceIn_of_home h]
  rfl

theorem changeAt_at? {symbol : Symbol} (h : s.at? r = some symbol) : s.changeAt r (fun _ => symbol) = s := by
  rw [Scopes.changeAt, changeAt_symbolAt h]
  rfl

theorem changeAt_sketch {change : Symbol → Symbol} (hchange : ∀ s, (change s).entity = s.entity) :
    (s.changeAt r change).sketch = s.sketch :=
  s.withChain_sketch (changeAt_outline hchange s.chain)

theorem owns_congr (h : s.sketch = s'.sketch) : s.Owns r ↔ s'.Owns r := by
  rw [Owns, Owns, home?_congr h r.name (by decide)]

theorem owns_enter {name : String} : (s.enter name).Owns r ↔ s.Owns r :=
  Iff.rfl

theorem add_ok {what : Declared} {x : String} (h : s.add (Symbol.ofEntity x what.entity) = .ok s') :
    s.find? x (some what.category) = none ∧ s.current.table.lookup x = none ∧ s' = s.declared what x := by
  simp only [add, Frame.add, Symbol.ofEntity, takenIn_eq] at h
  cases hfind : s.find? x (some what.category) with
  | some symbol =>
    have hsome : (findIn (s.current :: s.outer) x (some what.category)).isSome = true := by
      rw [show findIn (s.current :: s.outer) x (some what.category) = some symbol from hfind]
      rfl
    rw [if_pos hsome] at h
    cases what <;> cases h
  | none =>
    have hnone : ¬(findIn (s.current :: s.outer) x (some what.category)).isSome = true := by
      rw [show findIn (s.current :: s.outer) x (some what.category) = none from hfind]
      exact Bool.false_ne_true
    rw [if_neg hnone] at h
    simp only [Table.add] at h
    cases hlookup : s.current.table.lookup x with
    | some old => cases what <;> simp [hlookup, Declared.entity] at h <;> cases h
    | none =>
      refine ⟨rfl, rfl, ?_⟩
      rw [hlookup] at h
      cases h
      rfl

theorem Owns.declared {what : Declared} {x : String} (h : s.Owns r) (hfree : s.find? x (some what.category) = none)
    (hnew : s.current.table.lookup x = none) : (s.declared what x).Owns r :=
  home?_declared_other hnew hfree (by decide) h

theorem reference_eq (s : Scopes) (x : String) : s.reference x = ⟨s.sketch.here, x⟩ := by
  rw [reference, ← length_chainTables_eq_scopesIn, length_chainTables_outer]

theorem owns_reference (s : Scopes) (x : String) :
    (s.declared .function x).Owns ((s.declared .function x).reference x) := by
  rw [reference_eq]
  exact s.home?_declared .function x

/-- So many more scopes are open than before, inside the ones that were, and each function that could be found by its name
is still found in its scope. -/
structure Continues (base : Scopes) (n : Nat) (s : Scopes) : Prop where
  opened : s.sketch.opened.drop n = base.sketch.opened
  owns : ∀ r, base.Owns r → s.Owns r

namespace Continues

theorem refl (s : Scopes) : s.Continues 0 s :=
  ⟨rfl, fun _ h => h⟩

theorem trans {m : Nat} (h : base.Continues n s) (h' : s.Continues m s') : base.Continues (n + m) s' := by
  refine ⟨?_, fun r hr => h'.owns r (h.owns r hr)⟩
  rw [Nat.add_comm, ← List.drop_drop, h'.opened, h.opened]

theorem of_sketch (h : base.Continues n s) (heq : s'.sketch = s.sketch) : base.Continues n s' :=
  ⟨heq ▸ h.opened, fun r hr => (owns_congr heq).mpr (h.owns r hr)⟩

theorem enter (h : base.Continues n s) (name : String) : base.Continues (n + 1) (s.enter name) :=
  ⟨h.opened, fun r hr => owns_enter.mpr (h.owns r hr)⟩

theorem exit (h : base.Continues (n + 1) s) : base.Continues n s.exit := by
  have hopened : s.exit.sketch.opened.drop n = base.sketch.opened := by
    obtain ⟨current, outer, depth⟩ := s
    cases outer with
    | nil =>
      have hnil : base.sketch.opened = [] := h.opened.symm.trans (List.drop_nil)
      cases hnil
    | cons f fs => exact h.opened
  refine ⟨hopened, fun r hr => home?_exit (h.owns r hr) ?_⟩
  have hmem := hr.mem_opened
  rw [← hopened] at hmem
  exact List.mem_of_mem_drop hmem

theorem declared (h : base.Continues n s) {what : Declared} {x : String}
    (hfree : s.find? x (some what.category) = none) (hnew : s.current.table.lookup x = none) :
    base.Continues n (s.declared what x) :=
  ⟨h.opened, fun r hr => (h.owns r hr).declared hfree hnew⟩

end Continues

end Scopes

end CompiScript
