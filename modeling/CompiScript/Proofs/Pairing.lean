import CompiScript.Proofs.Effects.Homes

namespace CompiScript

namespace Table

def params (t : Table) : Notes (Option ParamList) :=
  fun f => (t.find? f (some .functions)).map Symbol.params?

variable {t : Table} {x f : String} {s : Symbol}

theorem params_put (t : Table) (x f : String) (s : Symbol) :
    (t.put x s).params f =
      if f = x then if s.entity.belongs .functions then some s.params? else none else t.params f := by
  simp only [params, find?_put]
  split
  · split <;> rfl
  · rfl

theorem params_setType (h : t.find? x (some .variables) = some s) (type : Option Ty) :
    (t.put x (s.setType type)).params = t.params := by
  have hnone : t.find? x (some .functions) = none :=
    find?_eq_none_of_other (by decide) (by decide) (by decide) h
  funext f
  rw [params_put]
  by_cases hf : f = x
  · simp [hf, params, hnone, Symbol.setType, Entity.belongs]
  · rw [if_neg hf]

theorem params_setReturns (h : t.find? x (some .functions) = some s) (type : Option Ty) :
    (t.put x (s.setReturns type)).params = t.params := by
  have hbelongs : (s.setReturns type).entity.belongs .functions = true := (find?_eq_some h).2
  funext f
  rw [params_put, if_pos hbelongs]
  by_cases hf : f = x
  · rw [if_pos hf, hf, params, h]
    rfl
  · rw [if_neg hf]

theorem params_setParams (h : t.find? x (some .functions) = some s) (keys : List String) :
    (t.put x (s.setParams keys)).params = t.params.write x (some (.keyed keys)) := by
  have hbelongs : (s.setParams keys).entity.belongs .functions = true := (find?_eq_some h).2
  funext f
  rw [params_put, if_pos hbelongs]
  rfl

theorem params_declare {noted : Option ParamList} (h : t.params f = some noted) (hx : t.lookup x = none)
    (s : Symbol) : (t.put x s).params f = some noted := by
  have hf : f ≠ x := by
    rintro rfl
    simp [params, find?, hx] at h
  rw [params_put, if_neg hf, h]

end Table

namespace Scopes

def paramsAt (s : Scopes) : Nat → String → Option (Option ParamList) :=
  s.note Table.params

def keysAt (s : Scopes) (n : Nat) : Option (List (String × Category)) :=
  (s.tables.map Table.keys)[n]?

variable {s : Scopes} {f x : String} {m n : Nat}

theorem paramsAt_setType (s : Scopes) (x : String) (t : Option Ty) : (s.setType x t).paramsAt = s.paramsAt :=
  note_changeIn_of_blind (fun _ _ h => Table.params_setType h t) s

theorem paramsAt_setReturns (s : Scopes) (x : String) (t : Option Ty) : (s.setReturns x t).paramsAt = s.paramsAt :=
  note_changeIn_of_blind (fun _ _ h => Table.params_setReturns h t) s

theorem paramsAt_setParams (s : Scopes) (x : String) (keys : List String) (n : Nat) (f : String) :
    (s.setParams x keys).paramsAt n f =
      if s.home? x .functions = some n ∧ f = x then some (some (.keyed keys)) else s.paramsAt n f :=
  note_changeIn (fun _ _ h => Table.params_setParams h keys) s n f

theorem tables_of_paramsAt {noted : Option ParamList} (h : s.paramsAt n f = some noted) :
    ∃ t symbol, s.tables[n]? = some t ∧ t.find? f (some .functions) = some symbol ∧ symbol.params? = noted := by
  obtain ⟨view, hview, hf⟩ := Option.bind_eq_some_iff.mp h
  rw [List.getElem?_map] at hview
  obtain ⟨t, ht, rfl⟩ := Option.map_eq_some_iff.mp hview
  obtain ⟨symbol, hsymbol, hnoted⟩ := Option.map_eq_some_iff.mp hf
  exact ⟨t, symbol, ht, hsymbol, hnoted⟩

theorem lt_of_paramsAt {noted : Option ParamList} (h : s.paramsAt n f = some noted) : n < s.tables.length := by
  obtain ⟨t, -, ht, -⟩ := tables_of_paramsAt h
  exact (List.getElem?_eq_some_iff.mp ht).1

theorem paramsAt_declared {noted : Option ParamList} (h : s.paramsAt n f = some noted)
    (hx : s.current.table.lookup x = none) (what : Declared) : (s.declared what x).paramsAt n f = some noted := by
  rw [paramsAt, note, s.map_tables_declared
    (ψ := fun _ => (s.current.table.put x (Symbol.ofEntity x what.entity)).params) what x rfl, List.getElem?_modify]
  by_cases hn : s.sketch.here = n
  · subst hn
    rw [paramsAt, note_of_table s.tables_here] at h
    rw [List.getElem?_map, s.tables_here]
    simpa using Table.params_declare h hx _
  · simpa [hn, paramsAt, note] using h

theorem paramsAt_declared_self (s : Scopes) (f : String) :
    (s.declared .function f).paramsAt s.sketch.here f = some none := by
  rw [paramsAt, note, s.map_tables_declared
    (ψ := fun _ => (s.current.table.put f (Symbol.ofEntity f Declared.function.entity)).params) .function f rfl,
    List.getElem?_modify, List.getElem?_map, s.tables_here]
  simp [Table.params_put, Symbol.ofEntity, Declared.entity, Entity.belongs, Symbol.params?, Entity.notes]

theorem keysAt_enter (h : n < s.tables.length) (name : String) : (s.enter name).keysAt n = s.keysAt n := by
  rw [keysAt, tables_enter, List.map_append, List.getElem?_append_left (by simpa using h), keysAt]

theorem keysAt_exit (s : Scopes) (n : Nat) : s.exit.keysAt n = s.keysAt n := by
  rw [keysAt, tables_exit, keysAt]

theorem keysAt_changeIn {c : Category} (hc : c ≠ .objects) {change : Symbol → Symbol}
    (h : ∀ a : Symbol, a.entity.belongs c = true → (change a).entity.belongs c = true) (s : Scopes) (n : Nat) :
    (s.withChain (changeIn x c change s.chain)).keysAt n = s.keysAt n := by
  have hblind : ∀ (t : Table) (a : Symbol), t.find? x (some c) = some a → (t.put x (change a)).keys = id t.keys := by
    intro t a ha
    obtain ⟨hlookup, hbelongs⟩ := Table.find?_eq_some ha
    refine Table.keys_put_of_lookup_some hlookup ?_
    exact ((change a).entity.belongs_iff hc).mp (h a hbelongs) |>.trans ((a.entity.belongs_iff hc).mp hbelongs).symm
  rw [keysAt, map_tables_changeIn hblind]
  cases s.home? x c with
  | none => rfl
  | some m => simp only [List.modify_id, keysAt]

theorem keysAt_setType (s : Scopes) (x : String) (t : Option Ty) (n : Nat) : (s.setType x t).keysAt n = s.keysAt n :=
  keysAt_changeIn (by decide) (fun _ _ => rfl) s n

theorem keysAt_setReturns (s : Scopes) (x : String) (t : Option Ty) (n : Nat) :
    (s.setReturns x t).keysAt n = s.keysAt n := by
  have hkept : ∀ a : Symbol, a.entity.belongs .functions = true → (a.setReturns t).entity.belongs .functions = true :=
    fun _ h => h
  exact keysAt_changeIn (by decide) hkept s n

theorem keysAt_setParams (s : Scopes) (x : String) (keys : List String) (n : Nat) :
    (s.setParams x keys).keysAt n = s.keysAt n := by
  have hkept : ∀ a : Symbol, a.entity.belongs .functions = true → (a.setParams keys).entity.belongs .functions = true :=
    fun _ h => h
  exact keysAt_changeIn (by decide) hkept s n

theorem keysAt_declared (hx : s.current.table.lookup x = none) (what : Declared) (n : Nat) :
    (s.declared what x).keysAt n =
      if s.sketch.here = n then (s.keysAt n).map (· ++ [(x, what.category)]) else s.keysAt n := by
  have hkeys : (s.current.table.put x (Symbol.ofEntity x what.entity)).keys =
      s.current.table.keys ++ [(x, what.category)] := by
    rw [Table.keys_put_of_lookup_none _ hx]
    cases what <;> rfl
  rw [keysAt, s.map_tables_declared (ψ := (· ++ [(x, what.category)])) what x hkeys, List.getElem?_modify, keysAt]
  split <;> simp

theorem mem_opened_of_home? {c : Category} (h : s.home? x c = some n) : n ∈ s.sketch.opened :=
  homeIn_mem h

end Scopes

namespace Sketch

def Stands (k : Sketch) (n : Nat) : Option Nat → Prop
  | some d => k.opened[d]? = some n
  | none => k.Left n

theorem opened_lt {k : Sketch} {n d : Nat} (h : k.opened[d + 1]? = some n) : n < k.here :=
  Outline.numbers_lt (List.mem_of_getElem? h)

theorem Stands.here_ne {k : Sketch} {n : Nat} {d : Option Nat} (h : k.Stands n d) (hd : d ≠ some 0) : k.here ≠ n := by
  cases d with
  | none =>
    rintro rfl
    exact h.2 (.head _)
  | some d =>
    cases d with
    | zero => exact absurd rfl hd
    | succ d => exact Nat.ne_of_gt (opened_lt h)

theorem Stands.exit {k : Sketch} {n : Nat} (hn : n ≠ 0) (h : k.Stands n (some 0)) : k.exit.Left n := by
  obtain ⟨current, outer, depth⟩ := k
  have hhere : Outline.sizes outer = n := Option.some.inj h
  subst hhere
  cases outer with
  | nil => exact absurd rfl hn
  | cons o outer =>
    refine ⟨?_, fun hopen => Nat.lt_irrefl _ (@Outline.numbers_lt (o :: outer) _ hopen)⟩
    rw [size_exit]
    exact Outline.numbers_lt (.head _)

end Sketch

namespace Step

def depth : Step → Option Nat → Option Nat
  | enter _, d => d.map (· + 1)
  | exit, some (d + 1) => some d
  | exit, _ => none
  | _, d => d

def latest : Step → Option String → Option String
  | declare .function f, _ => some f
  | _, f => f

def Allowed (d : Option Nat) (latest : Option String) : Step → Prop
  | declare _ _ => d ≠ some 0
  | bind f _ => latest = some f
  | _ => True

theorem depth_none (s : Step) : s.depth none = none := by
  cases s <;> rfl

theorem sketch_stands {k : Sketch} {n : Nat} (hn : n ≠ 0) {d : Option Nat} (s : Step) (h : k.Stands n d) :
    (s.sketch k).Stands n (s.depth d) := by
  cases d with
  | none =>
    rw [s.depth_none]
    exact s.sketch_left h
  | some d =>
    cases s with
    | enter scope => exact h
    | exit =>
      cases d with
      | zero => exact Sketch.Stands.exit hn h
      | succ d =>
        obtain ⟨current, outer, depth⟩ := k
        cases outer with
        | nil => cases h
        | cons o outer => exact h
    | declare what x => exact h
    | _ => exact h

end Step

/-- The function of the one scope notes these parameters, and the other scope has these variables. The function is found
by its name as long as its scope is open, and none of its name has been declared since. -/
structure Mirrored (f : String) (noted : Option ParamList) (names : List String) (m n : Nat) (d : Option Nat)
    (latest : Option String) (s : Scopes) : Prop where
  params : s.paramsAt m f = some noted
  keys : s.keysAt n = some (names.map (·, .variables))
  owner : m ∈ s.sketch.opened → s.home? f .functions = some m ∧ latest ≠ some f
  stands : s.sketch.Stands n d

namespace Step

variable {f : String} {noted : Option ParamList} {names : List String} {m n : Nat} {d : Option Nat} {r : Option String}
  {s : Step} {g g' : Stage}

theorem latest_ne (hrun : s.run g = .ok g') (hhome : g.scopes.home? f .functions = some m) (hlatest : r ≠ some f) :
    s.latest r ≠ some f := by
  cases s with
  | declare what x =>
    cases what with
    | function =>
      rintro ⟨⟩
      cases run_takes hrun with
      | declare hfree _ =>
        obtain ⟨-, symbol, -, -, hfound⟩ := Scopes.find?_home hhome
        cases hfree.symm.trans hfound
    | _ => exact hlatest
  | _ => exact hlatest

theorem run_paramsAt (hrun : s.run g = .ok g') (hallowed : s.Allowed d r)
    (howner : m ∈ g.scopes.sketch.opened → r ≠ some f) (h : g.scopes.paramsAt m f = some noted) :
    g'.scopes.paramsAt m f = some noted := by
  cases run_takes hrun with
  | enter scope => exact (congrFun (congrFun (g.scopes.note_enter rfl scope) m) f).trans h
  | exit => exact (congrFun (congrFun g.scopes.note_exit m) f).trans h
  | @declare what x hfree hnew => exact Scopes.paramsAt_declared h hnew what
  | bind name keys =>
    refine (g.scopes.paramsAt_setParams name keys m f).trans ?_
    rw [if_neg, h]
    rintro ⟨hhome, rfl⟩
    exact howner (Scopes.mem_opened_of_home? hhome) hallowed
  | @assignFirst x hold => exact (congrFun (congrFun (g.scopes.paramsAt_setType x g.type) m) f).trans h
  | initialise x => exact (congrFun (congrFun (g.scopes.paramsAt_setType x g.type) m) f).trans h
  | @returnFirst name hflag hold => exact (congrFun (congrFun (g.scopes.paramsAt_setReturns name g.type) m) f).trans h
  | _ => exact h

theorem run_keysAt (hrun : s.run g = .ok g') (hhere : ∀ what x, s = .declare what x → g.scopes.sketch.here ≠ n)
    (hn : n < g.scopes.tables.length) : g'.scopes.keysAt n = g.scopes.keysAt n := by
  cases run_takes hrun with
  | enter scope => exact Scopes.keysAt_enter hn scope
  | exit => exact g.scopes.keysAt_exit n
  | @declare what x hfree hnew =>
    refine (Scopes.keysAt_declared hnew what n).trans ?_
    rw [if_neg (hhere what x rfl)]
  | bind name keys => exact g.scopes.keysAt_setParams name keys n
  | @assignFirst x hold => exact g.scopes.keysAt_setType x g.type n
  | initialise x => exact g.scopes.keysAt_setType x g.type n
  | @returnFirst name hflag hold => exact g.scopes.keysAt_setReturns name g.type n
  | _ => rfl

theorem mem_opened_of_run (hrun : s.run g = .ok g') (hm : m < g.scopes.tables.length)
    (h : m ∈ g'.scopes.sketch.opened) : m ∈ g.scopes.sketch.opened := by
  rw [Scopes.length_tables] at hm
  rw [s.run_sketch hrun] at h
  apply Decidable.not_not.mp
  intro hleft
  exact (s.sketch_left ⟨hm, hleft⟩).2 h

theorem run_mirrored (hn : n ≠ 0) (hrun : s.run g = .ok g') (hallowed : s.Allowed d r)
    (h : Mirrored f noted names m n d r g.scopes) : Mirrored f noted names m n (s.depth d) (s.latest r) g'.scopes where
  params := run_paramsAt hrun hallowed (fun hm => (h.owner hm).2) h.params
  keys := by
    have hhere : ∀ what x, s = .declare what x → g.scopes.sketch.here ≠ n := by
      rintro what x rfl
      exact h.stands.here_ne hallowed
    have hlt : n < g.scopes.tables.length := by
      obtain ⟨hlt, -⟩ := List.getElem?_eq_some_iff.mp h.keys
      simpa using hlt
    rw [run_keysAt hrun hhere hlt, h.keys]
  owner hm := by
    obtain ⟨hhome, hlatest⟩ := h.owner (mem_opened_of_run hrun (Scopes.lt_of_paramsAt h.params) hm)
    exact ⟨run_home hrun (by decide) hhome hm, latest_ne hrun hhome hlatest⟩
  stands := by
    rw [s.run_sketch hrun]
    exact s.sketch_stands hn h.stands

end Step

end CompiScript
