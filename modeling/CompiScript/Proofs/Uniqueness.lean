import CompiScript.Proofs.Reading.Statements
import CompiScript.Proofs.Simulation.Functions

namespace CompiScript

open Syntax

def Table.Named (t : Table) : Prop :=
  ∀ e ∈ t, e.2.name = e.1

structure Sketch.Clear (k : Sketch) : Prop where
  distinct : ∀ o ∈ k.current :: k.outer, (o.keys.map Prod.fst).Nodup
  once : (k.current :: k.outer).Pairwise fun o p => ∀ key ∈ o.keys, key ∉ p.keys

structure Scopes.Unambiguous (s : Scopes) : Prop where
  clear : s.sketch.Clear
  named : ∀ f ∈ s.chain, f.table.Named

namespace Table

theorem mem_put {t : Table} {x : String} {s : Symbol} {e : String × Symbol} (h : e ∈ t.put x s) :
    e = (x, s) ∨ e ∈ t := by
  induction t with
  | nil => exact .inl (List.mem_singleton.mp h)
  | cons first t ih =>
    obtain ⟨n, old⟩ := first
    rw [put] at h
    by_cases hn : n = x
    · rw [if_pos hn, hn] at h
      rcases List.mem_cons.mp h with rfl | htail
      · exact .inl rfl
      · exact .inr (.tail _ htail)
    · rw [if_neg hn] at h
      rcases List.mem_cons.mp h with rfl | htail
      · exact .inr (.head _)
      · exact (ih htail).imp_right (.tail _)

theorem Named.put {t : Table} (ht : t.Named) {x : String} {s : Symbol} (hs : s.name = x) : (t.put x s).Named := by
  intro e he
  rcases mem_put he with rfl | hold
  · exact hs
  · exact ht e hold

theorem mem_of_find? {t : Table} {x : String} {c : Category} {s : Symbol} (h : t.find? x (some c) = some s) :
    (x, s) ∈ t :=
  mem_of_lookup_eq_some (find?_eq_some h).1

theorem Named.put_found {t : Table} (ht : t.Named) {x : String} {c : Category} {s s' : Symbol}
    (h : t.find? x (some c) = some s) (hs : s'.name = s.name) : (t.put x s').Named := by
  have hname : s.name = x := ht (x, s) (mem_of_find? h)
  exact ht.put (hs.trans hname)

theorem find?_of_mem {t : Table} (ht : t.names.Nodup) {x : String} {s : Symbol} (hx : (x, s) ∈ t) {c : Category}
    (hs : s.entity.belongs c = true) : t.find? x (some c) = some s := by
  have hlookup : t.lookup x = some s := lookup_eq_some_of_mem ht hx
  simp only [find?, hlookup, if_pos hs]

theorem mem_keys {t : Table} {x : String} {s : Symbol} (hx : (x, s) ∈ t) {c : Category} (hc : c ≠ .objects)
    (hs : s.entity.belongs c = true) : (x, c) ∈ t.keys := by
  rw [← (s.entity.belongs_iff hc).mp hs]
  exact List.mem_map_of_mem hx

theorem keys_names (t : Table) : t.keys.map Prod.fst = t.names := by
  simp [keys, names, Function.comp_def]

theorem not_mem_names {t : Table} {x : String} (h : t.lookup x = none) : x ∉ t.names := by
  intro hmem
  obtain ⟨⟨y, symbol⟩, hy, rfl⟩ := List.mem_map.mp hmem
  have hother := List.lookup_eq_none_iff.mp h (y, symbol) hy
  simp at hother

end Table

section Named

variable {fs : List Frame}

theorem changeIn_named {change : Symbol → Symbol} (hchange : ∀ s, (change s).name = s.name) (x : String)
    (c : Category) (h : ∀ f ∈ fs, f.table.Named) : ∀ f ∈ changeIn x c change fs, f.table.Named := by
  induction fs with
  | nil => exact h
  | cons f fs ih =>
    obtain ⟨hf, hfs⟩ := List.forall_mem_cons.mp h
    rw [changeIn]
    split
    · next s hs => exact List.forall_mem_cons.mpr ⟨hf.put_found hs (hchange s), hfs⟩
    · exact List.forall_mem_cons.mpr ⟨hf, ih hfs⟩

end Named

namespace Scopes

theorem withChain_named {s : Scopes} {fs : List Frame} (hs : ∀ f ∈ s.chain, f.table.Named)
    (h : ∀ f ∈ fs, f.table.Named) : ∀ f ∈ (s.withChain fs).chain, f.table.Named := by
  cases fs with
  | nil => exact hs
  | cons f fs => exact h

theorem exit_named {s : Scopes} (hs : ∀ f ∈ s.chain, f.table.Named) : ∀ f ∈ s.exit.chain, f.table.Named := by
  obtain ⟨current, outer, depth⟩ := s
  cases outer with
  | nil => exact hs
  | cons f fs =>
    obtain ⟨-, houter⟩ := List.forall_mem_cons.mp hs
    obtain ⟨hf, hfs⟩ := List.forall_mem_cons.mp houter
    exact List.forall_mem_cons.mpr ⟨hf, hfs⟩

end Scopes

theorem Step.run_named {s : Step} {g g' : Stage} (h : s.run g = .ok g') (hg : ∀ f ∈ g.scopes.chain, f.table.Named) :
    ∀ f ∈ g'.scopes.chain, f.table.Named := by
  obtain ⟨hcurrent, houter⟩ := List.forall_mem_cons.mp hg
  have hset : ∀ x t, ∀ f ∈ (g.scopes.setType x t).chain, f.table.Named := by
    intro x t
    have hchange : ∀ s : Symbol, (s.setType t).name = s.name := fun s => rfl
    exact Scopes.withChain_named hg (changeIn_named hchange x .variables hg)
  cases run_takes h with
  | enter scope =>
    have hempty : Table.Named [] := fun e he => nomatch he
    exact List.forall_mem_cons.mpr ⟨hempty, hg⟩
  | exit => exact Scopes.exit_named hg
  | declare hfree hnew => exact List.forall_mem_cons.mpr ⟨hcurrent.put rfl, houter⟩
  | bind f keys =>
    have hchange : ∀ s : Symbol, (s.setParams keys).name = s.name := fun s => rfl
    exact Scopes.withChain_named hg (changeIn_named hchange f .functions hg)
  | @assignFirst x hold => exact hset x g.type
  | initialise x => exact hset x g.type
  | @returnFirst f hflag hold =>
    have hchange : ∀ s : Symbol, (s.setReturns g.type).name = s.name := fun s => rfl
    exact Scopes.withChain_named hg (changeIn_named hchange f .functions hg)
  | _ => exact hg

namespace Sketch

theorem Clear.enter {k : Sketch} (hk : k.Clear) (name : String) : (k.enter name).Clear := by
  refine ⟨List.forall_mem_cons.mpr ⟨List.nodup_nil, hk.distinct⟩, List.pairwise_cons.mpr ⟨?_, hk.once⟩⟩
  intro o ho key hkey
  cases hkey

theorem Clear.exit {k : Sketch} (hk : k.Clear) : k.exit.Clear := by
  obtain ⟨current, outer, depth⟩ := k
  cases outer with
  | nil => exact hk
  | cons o os =>
    have hkeys : (o.extend [] [current]).keys = o.keys := by
      cases o
      exact List.append_nil _
    obtain ⟨-, hdistinct⟩ := List.forall_mem_cons.mp hk.distinct
    obtain ⟨ho, hos⟩ := List.forall_mem_cons.mp hdistinct
    obtain ⟨hfirst, hrest⟩ := List.pairwise_cons.mp (List.pairwise_cons.mp hk.once).2
    refine ⟨List.forall_mem_cons.mpr ⟨?_, hos⟩, List.pairwise_cons.mpr ⟨?_, hrest⟩⟩
    · change ((o.extend [] [current]).keys.map Prod.fst).Nodup
      rw [hkeys]
      exact ho
    · change ∀ p ∈ os, ∀ key ∈ (o.extend [] [current]).keys, key ∉ p.keys
      rw [hkeys]
      exact hfirst

theorem Clear.declare {k : Sketch} (hk : k.Clear) {x : String} {c : Category} (hfree : ¬k.Has x c)
    (hnew : x ∉ k.current.keys.map Prod.fst) : (k.extend [(x, c)] []).Clear := by
  have hkeys : (k.extend [(x, c)] []).current.keys = k.current.keys ++ [(x, c)] := by
    obtain ⟨⟨name, level, keys, children⟩, outer, depth⟩ := k
    rfl
  obtain ⟨hcurrent, houter⟩ := List.forall_mem_cons.mp hk.distinct
  obtain ⟨hfirst, hrest⟩ := List.pairwise_cons.mp hk.once
  refine ⟨List.forall_mem_cons.mpr ⟨?_, houter⟩, List.pairwise_cons.mpr ⟨?_, hrest⟩⟩
  · rw [hkeys, List.map_append]
    apply List.nodup_append.mpr
    refine ⟨hcurrent, by simp, ?_⟩
    intro y hy z hz
    rw [List.mem_singleton.mp hz]
    rintro rfl
    exact hnew hy
  · intro o ho key hkey
    rw [hkeys] at hkey
    rcases List.mem_append.mp hkey with hold | hnewest
    · exact hfirst o ho key hold
    · rw [List.mem_singleton.mp hnewest]
      intro hmem
      exact hfree ⟨o, .tail _ ho, hmem⟩

end Sketch

theorem Scopes.not_has_of_find? {s : Scopes} (hs : s.sketch.Clear) {x : String} {c : Category} (hc : c ≠ .objects)
    (h : s.find? x (some c) = none) : ¬s.sketch.Has x c := by
  rintro ⟨o, ho, hx⟩
  obtain ⟨f, hf, rfl⟩ := List.mem_map.mp (show o ∈ s.chain.map Frame.outline from ho)
  have hlookup : f.table.keys.lookup x = some c := lookup_eq_some_of_mem (hs.distinct _ ho) hx
  have hfound : (s.find? x (some c)).isSome = true := (findIn_isSome s.chain x hc).mpr ⟨f, hf, hlookup⟩
  rw [h] at hfound
  cases hfound

theorem Step.run_clear {s : Step} {g g' : Stage} (h : s.run g = .ok g') (hg : g.scopes.sketch.Clear) :
    g'.scopes.sketch.Clear := by
  rw [s.run_sketch h]
  cases s with
  | enter scope => exact hg.enter scope
  | exit => exact hg.exit
  | declare what x =>
    cases run_takes h with
    | declare hfree hnew =>
      have hcategory : what.category ≠ .objects := by cases what <;> decide
      apply hg.declare (Scopes.not_has_of_find? hg hcategory hfree)
      change x ∉ g.scopes.current.table.keys.map Prod.fst
      rw [Table.keys_names]
      exact Table.not_mem_names hnew
  | _ => exact hg

theorem Step.run_unambiguous {s : Step} {g g' : Stage} (h : s.run g = .ok g') (hg : g.scopes.Unambiguous) :
    g'.scopes.Unambiguous :=
  ⟨s.run_clear h hg.clear, s.run_named h hg.named⟩

theorem execute_unambiguous (steps : List Step) {g : Stage} (hg : g.scopes.Unambiguous) :
    (execute steps g).2.scopes.Unambiguous :=
  execute_invariant (P := fun g => g.scopes.Unambiguous) (fun _ _ _ => Step.run_unambiguous) steps hg

theorem findIn_eq {fs : List Frame} (hdistinct : ∀ f ∈ fs, f.table.names.Nodup)
    (honce : fs.Pairwise fun f g => ∀ key ∈ f.table.keys, key ∉ g.table.keys) {f : Frame} (hf : f ∈ fs) {x : String}
    {s : Symbol} (hx : (x, s) ∈ f.table) {c : Category} (hc : c ≠ .objects) (hs : s.entity.belongs c = true) :
    findIn fs x (some c) = some s := by
  induction fs with
  | nil => cases hf
  | cons g fs ih =>
    obtain ⟨hg, hfs⟩ := List.forall_mem_cons.mp hdistinct
    obtain ⟨hfirst, hrest⟩ := List.pairwise_cons.mp honce
    rw [findIn]
    rcases List.mem_cons.mp hf with rfl | hmem
    · rw [Table.find?_of_mem hg hx hs]
    · -- What an inner table has under the name is of another category.
      have hnone : g.table.find? x (some c) = none := by
        cases hfound : g.table.find? x (some c) with
        | none => rfl
        | some other =>
          have hinner := Table.mem_keys (Table.mem_of_find? hfound) hc (Table.find?_eq_some hfound).2
          have houter := Table.mem_keys hx hc hs
          exact absurd houter (hfirst f hmem (x, c) hinner)
      rw [hnone]
      exact ih hfs hrest hmem

namespace Scopes

theorem Unambiguous.find?_eq {s : Scopes} (hs : s.Unambiguous) {f : Frame} (hf : f ∈ s.chain) {x : String}
    {symbol : Symbol} (hx : (x, symbol) ∈ f.table) {c : Category} (hc : c ≠ .objects)
    (hsymbol : symbol.entity.belongs c = true) : s.find? x (some c) = some symbol := by
  have hchain : s.sketch.current :: s.sketch.outer = s.chain.map Frame.outline := rfl
  have hdistinct : ∀ f ∈ s.chain, f.table.names.Nodup := by
    intro f hf
    rw [← f.table.keys_names]
    exact hs.clear.distinct f.outline (hchain ▸ List.mem_map_of_mem hf)
  have honce : s.chain.Pairwise fun f g => ∀ key ∈ f.table.keys, key ∉ g.table.keys :=
    List.pairwise_map.mp (hchain ▸ hs.clear.once)
  exact findIn_eq hdistinct honce hf hx hc hsymbol

theorem start_unambiguous : Scopes.start.Unambiguous := by
  have hnone : ∀ f ∈ Scopes.start.chain, f.table = [] := by decide
  refine ⟨⟨?_, List.pairwise_singleton ..⟩, ?_⟩
  · intro o ho
    rw [List.mem_singleton.mp ho]
    exact List.nodup_nil
  · intro f hf e he
    rw [hnone f hf] at he
    cases he

end Scopes

/-- At every point of an analysis, and where an error ends it, each symbol of the open scopes is stored under
its name, and a name stands for one variable at most and for one function at most; a look-up on the chain
has therefore only one answer to give. -/
theorem live_names_unique {text : String} {d : Derived} (h : parseText .program text = .ok d) :
    (∃ p : Program, p.tree = d.tree) ∧
    (∀ p : Program, p.tree = d.tree → ∀ s : AnalysisState, s.scopes.Unambiguous →
      (s.analyse d.tree).2.scopes.Unambiguous ∧
        ∀ before after, p.steps = before ++ after →
          (execute before ⟨s.standing, none⟩).2.scopes.Unambiguous) ∧
    AnalysisState.start.scopes.Unambiguous ∧
    ∀ s : Scopes, s.Unambiguous → ∀ f ∈ s.chain, ∀ x symbol c, (x, symbol) ∈ f.table → c ≠ .objects →
      symbol.entity.belongs c = true → s.find? x (some c) = some symbol := by
  refine ⟨parseText_program h, ?_, Scopes.start_unambiguous, ?_⟩
  · intro p hp s hs
    refine ⟨?_, fun before _ _ => execute_unambiguous before hs⟩
    have hscopes : (s.analyse p.tree).2.scopes = (execute p.steps ⟨s.standing, none⟩).2.scopes :=
      congrArg Standing.scopes (analyse_standing s p)
    rw [← hp, hscopes]
    exact execute_unambiguous p.steps hs
  · intro s hs f hf x symbol c hx hc hsymbol
    exact hs.find?_eq hf hx hc hsymbol

theorem live_names_unique_after_error :
    ∃ d, parseText .program "{ var b; } var b; fun f(a) { var f; { x; } }" = .ok d ∧
      (AnalysisState.start.analyse d.tree).2.scopes.depth = 3 ∧
      ((AnalysisState.start.analyse d.tree).2.scopes.find? "f" (some .variables)).isSome = true ∧
      ((AnalysisState.start.analyse d.tree).2.scopes.find? "f" (some .functions)).isSome = true ∧
      ((AnalysisState.start.analyse d.tree).2.scopes.find? "b" (some .variables)).isSome = true ∧
      (AnalysisState.start.analyse d.tree).2.scopes.Unambiguous := by
  obtain ⟨d, hd, hfinal⟩ := exists_derived "{ var b; } var b; fun f(a) { var f; { x; } }"
    (fun d =>
      let s := (AnalysisState.start.analyse d.tree).2.scopes
      decide (s.depth = 3) && (s.find? "f" (some .variables)).isSome && (s.find? "f" (some .functions)).isSome &&
        (s.find? "b" (some .variables)).isSome)
    (by decide +kernel)
  simp only [Bool.and_eq_true, decide_eq_true_eq] at hfinal
  obtain ⟨⟨⟨hdepth, hvariable⟩, hfunction⟩, houter⟩ := hfinal
  obtain ⟨⟨p, hp⟩, hpoints, hstart, -⟩ := live_names_unique hd
  exact ⟨d, hd, hdepth, hvariable, hfunction, houter, (hpoints p hp .start hstart).1⟩

end CompiScript
