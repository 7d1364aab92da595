import CompiScript.Proofs.Links.Calls
import CompiScript.Proofs.Settling.Types

namespace CompiScript

open Syntax

mutual

def Scope.all : Scope → List Scope
  | .mk name level table children => .mk name level table children :: Scope.allOf children

def Scope.allOf : List Scope → List Scope
  | [] => []
  | s :: ss => s.all ++ Scope.allOf ss

end

namespace Scope

def table : Scope → Table
  | .mk _ _ table _ => table

theorem allOf_append (ss ts : List Scope) : allOf (ss ++ ts) = allOf ss ++ allOf ts := by
  induction ss with
  | nil => rfl
  | cons s ss ih => rw [List.cons_append, allOf, allOf, ih, List.append_assoc]

mutual

theorem length_all : ∀ s : Scope, s.all.length = s.outline.size
  | .mk _ _ _ children => by rw [all, List.length_cons, length_allOf children, outline, Outline.size]

theorem length_allOf : ∀ ss : List Scope, (allOf ss).length = Outline.sizes (outlines ss)
  | [] => rfl
  | s :: ss => by rw [allOf, List.length_append, s.length_all, length_allOf ss, outlines, Outline.sizes]

end

mutual

theorem map_table_all : ∀ s : Scope, s.all.map table = s.tables
  | .mk _ _ _ children => by rw [all, List.map_cons, map_table_allOf children, tables, table]

theorem map_table_allOf : ∀ ss : List Scope, (allOf ss).map table = tablesAll ss
  | [] => rfl
  | s :: ss => by rw [allOf, List.map_append, s.map_table_all, map_table_allOf ss, tablesAll]

end

end Scope

def chainFinished : List Frame → List (Option Scope)
  | [] => []
  | f :: outer => chainFinished outer ++ none :: (Scope.allOf f.closed).map some

theorem length_chainFinished (fs : List Frame) :
    (chainFinished fs).length = Outline.sizes (fs.map Frame.outline) := by
  induction fs with
  | nil => rfl
  | cons f fs ih =>
    simp only [chainFinished, List.length_append, List.length_cons, List.length_map, ih, Scope.length_allOf,
      List.map_cons, Outline.sizes, Frame.outline, Outline.size]
    omega

theorem chainFinished_congr {fs gs : List Frame} (h : fs.map Frame.closed = gs.map Frame.closed) :
    chainFinished fs = chainFinished gs := by
  induction fs generalizing gs with
  | nil =>
    cases gs with
    | nil => rfl
    | cons g gs => cases h
  | cons f fs ih =>
    cases gs with
    | nil => cases h
    | cons g gs =>
      obtain ⟨hclosed, hrest⟩ := List.cons.inj h
      rw [chainFinished, chainFinished, hclosed, ih hrest]

theorem exists_finished {fs : List Frame} {n : Nat} (hlt : n < Outline.sizes (fs.map Frame.outline))
    (hleft : n ∉ Outline.numbers (fs.map Frame.outline)) : ∃ scope, (chainFinished fs)[n]? = some (some scope) := by
  induction fs with
  | nil => cases hlt
  | cons f fs ih =>
    have hlength := length_chainFinished fs
    simp only [List.map_cons, Outline.numbers, List.mem_cons, not_or] at hleft
    rw [chainFinished]
    by_cases houter : n < Outline.sizes (fs.map Frame.outline)
    · rw [List.getElem?_append_left (by omega)]
      exact ih houter hleft.2
    · -- The number of the frame itself is that of an open scope; the ones behind it are inside.
      obtain ⟨i, rfl⟩ : ∃ i, n = (chainFinished fs).length + (i + 1) :=
        ⟨n - (chainFinished fs).length - 1, by omega⟩
      have hinner : i < (Scope.allOf f.closed).length := by
        rw [Scope.length_allOf]
        simp only [List.map_cons, Outline.sizes, Frame.outline, Outline.size] at hlt
        omega
      refine ⟨(Scope.allOf f.closed)[i], ?_⟩
      rw [List.getElem?_append_right (Nat.le_add_right ..), Nat.add_sub_cancel_left, List.getElem?_cons_succ,
        List.getElem?_map, List.getElem?_eq_getElem hinner, Option.map_some]

section Shown

structure Shown (finished : List (Option Scope)) (all : List Scope) : Prop where
  length : finished.length = all.length
  scope : ∀ (n : Nat) (scope : Scope), finished[n]? = some (some scope) → all[n]? = some scope

variable {os ps : List (Option Scope)} {ss ts : List Scope}

theorem Shown.append (h : Shown os ss) (h' : Shown ps ts) : Shown (os ++ ps) (ss ++ ts) := by
  refine ⟨by rw [List.length_append, List.length_append, h.length, h'.length], ?_⟩
  intro n scope hn
  by_cases hlt : n < os.length
  · rw [List.getElem?_append_left hlt] at hn
    rw [List.getElem?_append_left (h.length ▸ hlt)]
    exact h.scope n scope hn
  · have hge := Nat.le_of_not_lt hlt
    rw [List.getElem?_append_right hge] at hn
    rw [List.getElem?_append_right (h.length ▸ hge), ← h.length]
    exact h'.scope _ scope hn

theorem Shown.cons_open (s : Scope) (h : Shown os ss) : Shown (none :: os) (s :: ss) := by
  refine ⟨by rw [List.length_cons, List.length_cons, h.length], ?_⟩
  intro n scope hn
  cases n with
  | zero => cases hn
  | succ n => exact h.scope n scope hn

theorem shown_map_some (ss : List Scope) : Shown (ss.map some) ss := by
  refine ⟨List.length_map .., ?_⟩
  intro n scope hn
  rw [List.getElem?_map] at hn
  obtain ⟨found, hfound, heq⟩ := Option.map_eq_some_iff.mp hn
  cases heq
  exact hfound

end Shown

theorem closeAll_shown {t t' : Scope} {outer : List Frame} (h : Scopes.closeAll (some t) outer = some t') :
    ∃ front, t'.all = front ++ t.all ∧ Shown (chainFinished outer) front := by
  induction outer generalizing t with
  | nil =>
    cases h
    exact ⟨[], rfl, rfl, nofun⟩
  | cons f fs ih =>
    obtain ⟨front, hall, hfront⟩ := ih h
    refine ⟨front ++ f.close (some t) :: Scope.allOf f.closed, ?_, ?_⟩
    · rw [hall]
      simp [Frame.close, Scope.all, Scope.allOf_append, Scope.allOf]
    · rw [chainFinished]
      exact hfront.append ((shown_map_some _).cons_open _)

namespace Scopes

def all (s : Scopes) : List Scope :=
  s.tree.all

theorem all_shown (s : Scopes) : Shown (chainFinished s.chain) s.all := by
  obtain ⟨t, ht⟩ := closeAll_isSome (s.current.close none) s.outer
  obtain ⟨front, hall, hfront⟩ := closeAll_shown ht
  have hcurrent : (s.current.close none).all = s.current.close none :: Scope.allOf s.current.closed := by
    simp [Frame.close, Scope.all]
  rw [all, tree_eq ht, hall, hcurrent, chain, chainFinished]
  exact hfront.append ((shown_map_some _).cons_open _)

theorem exists_finished_of_left {s : Scopes} {n : Nat} (h : s.sketch.Left n) :
    ∃ scope, (chainFinished s.chain)[n]? = some (some scope) :=
  exists_finished h.1 h.2

end Scopes

section Closed

theorem changeIn_closed (x : String) (c : Category) (change : Symbol → Symbol) (fs : List Frame) :
    (changeIn x c change fs).map Frame.closed = fs.map Frame.closed := by
  induction fs with
  | nil => rfl
  | cons f fs ih =>
    rw [changeIn]
    split
    · rfl
    · rw [List.map_cons, List.map_cons, ih]

theorem Scopes.withChain_finished (s : Scopes) {fs : List Frame}
    (h : fs.map Frame.closed = s.chain.map Frame.closed) :
    chainFinished (s.withChain fs).chain = chainFinished s.chain := by
  cases fs with
  | nil => rfl
  | cons f fs => exact chainFinished_congr h

end Closed

theorem Scopes.exit_finished {s : Scopes} (h : s.outer ≠ []) :
    ∃ before after, before.length = s.sketch.here ∧ chainFinished s.chain = before ++ none :: after ∧
      chainFinished s.exit.chain = before ++ some (s.current.close none) :: after := by
  obtain ⟨current, outer, depth⟩ := s
  cases outer with
  | nil => exact absurd rfl h
  | cons f fs =>
    refine ⟨chainFinished (f :: fs), (Scope.allOf current.closed).map some, length_chainFinished _, rfl, ?_⟩
    simp [exit, chain, chainFinished, Scope.allOf_append, Scope.allOf, Frame.close, Scope.all]

theorem getElem?_of_open {before after : List (Option Scope)} {n : Nat} {scope : Scope}
    (h : (before ++ none :: after)[n]? = some (some scope)) (filled : Option Scope) :
    (before ++ filled :: after)[n]? = some (some scope) := by
  by_cases hlt : n < before.length
  · rw [List.getElem?_append_left hlt] at h ⊢
    exact h
  · have hge := Nat.le_of_not_lt hlt
    rw [List.getElem?_append_right hge] at h ⊢
    cases hi : n - before.length with
    | zero =>
      rw [hi] at h
      cases h
    | succ i =>
      rw [hi] at h
      exact h

theorem Scopes.exit_finished_kept {s : Scopes} {n : Nat} {scope : Scope}
    (h : (chainFinished s.chain)[n]? = some (some scope)) :
    (chainFinished s.exit.chain)[n]? = some (some scope) := by
  by_cases houter : s.outer = []
  · have hexit : s.exit = s := by
      rw [exit, houter]
    rw [hexit]
    exact h
  · obtain ⟨before, after, -, hopen, hleft⟩ := exit_finished houter
    rw [hopen] at h
    rw [hleft]
    exact getElem?_of_open h _

theorem Step.run_finished {s : Step} {g g' : Stage} (h : s.run g = .ok g') {n : Nat} {scope : Scope}
    (hn : (chainFinished g.scopes.chain)[n]? = some (some scope)) :
    (chainFinished g'.scopes.chain)[n]? = some (some scope) := by
  have hset : ∀ x t, chainFinished (g.scopes.setType x t).chain = chainFinished g.scopes.chain :=
    fun x t => g.scopes.withChain_finished (changeIn_closed x .variables _ g.scopes.chain)
  cases run_takes h with
  | enter name =>
    have hlt := (List.getElem?_eq_some_iff.mp hn).1
    change (chainFinished g.scopes.chain ++ [none])[n]? = some (some scope)
    rw [List.getElem?_append_left hlt]
    exact hn
  | exit => exact Scopes.exit_finished_kept hn
  | declare hfree hnew => exact hn
  | bind f keys =>
    rw [Scopes.setParams, g.scopes.withChain_finished (changeIn_closed f .functions _ g.scopes.chain)]
    exact hn
  | @assignFirst x hold =>
    rw [hset]
    exact hn
  | initialise x =>
    rw [hset]
    exact hn
  | @returnFirst f hflag hold =>
    rw [Scopes.setReturns, g.scopes.withChain_finished (changeIn_closed f .functions _ g.scopes.chain)]
    exact hn
  | _ => exact hn

theorem Step.run_link {s : Step} {g g' : Stage} (h : s.run g = .ok g') {n : Nat} (hn : g.scopes.sketch.Left n)
    {link : Link} (hlink : g.scopes.links.scopes[n]? = some link) : g'.scopes.links.scopes[n]? = some link := by
  have hsketch := s.run_sketch h
  cases s with
  | enter name =>
    cases h
    have hcurrent : g.scopes.links.current ≠ n := by
      intro hhere
      apply hn.2
      rw [← hhere]
      exact .head _
    have hold := Links.enter_getElem?_old name hlink
    rw [if_neg hcurrent] at hold
    rw [Scopes.links_enter]
    exact hold
  | exit =>
    cases h
    have hscopes : g.scopes.exit.links.scopes = g.scopes.links.scopes := by
      rw [Scopes.links, Scopes.tree_exit]
      rfl
    rw [hscopes]
    exact hlink
  | declare what x =>
    rw [Scopes.links_eq, hsketch, Step.sketch, Sketch.links_extend, ← Scopes.links_eq]
    exact hlink
  | _ =>
    rw [Scopes.links_eq, hsketch, Step.sketch, ← Scopes.links_eq]
    · exact hlink
    all_goals
      intros
      contradiction

/-- The scope with the number has been left, and it is what it was: it is in the same place, with the same
name, level, table and scopes inside, and no look-up finds anything in it. -/
structure Scopes.Keeps (s s' : Scopes) (n : Nat) : Prop where
  left : s'.sketch.Left n
  scope : ∃ scope, s.all[n]? = some scope ∧ s'.all[n]? = some scope
  link : ∃ link, s.links.scopes[n]? = some link ∧ s'.links.scopes[n]? = some link
  unseen : ∀ x c symbol, s'.find? x (some c) = some symbol →
    ∃ m scope, m ≠ n ∧ s'.home? x c = some m ∧ s'.all[m]? = some scope ∧
      scope.table.find? x (some c) = some symbol

theorem Scopes.unseen_of_left {s : Scopes} {n : Nat} (hn : s.sketch.Left n) {x : String} {c : Category}
    {symbol : Symbol} (h : s.find? x (some c) = some symbol) :
    ∃ m scope, m ≠ n ∧ s.home? x c = some m ∧ s.all[m]? = some scope ∧
      scope.table.find? x (some c) = some symbol := by
  obtain ⟨m, table, hhome, htable, hsymbol⟩ := findIn_home h
  rw [← tables_eq, tables, ← Scope.map_table_all, List.getElem?_map] at htable
  obtain ⟨scope, hscope, rfl⟩ := Option.map_eq_some_iff.mp htable
  refine ⟨m, scope, ?_, hhome, hscope, hsymbol⟩
  rintro rfl
  exact hn.2 (homeIn_mem hhome)

theorem execute_keeps {steps : List Step} {g g' : Stage} (h : execute steps g = (none, g')) {n : Nat}
    (hn : g.scopes.sketch.Left n) : g.scopes.Keeps g'.scopes n := by
  obtain ⟨scope, hfinished⟩ := Scopes.exists_finished_of_left hn
  have hlt : n < g.scopes.links.scopes.length := by
    rw [Scopes.links_eq, Sketch.links, Outline.length_chainLinks]
    exact hn.1
  obtain ⟨link, hlink⟩ : ∃ link, g.scopes.links.scopes[n]? = some link :=
    ⟨_, List.getElem?_eq_getElem hlt⟩
  have hkept := execute_induction
    (P := fun k => k.scopes.sketch.Left n ∧ (chainFinished k.scopes.chain)[n]? = some (some scope) ∧
      k.scopes.links.scopes[n]? = some link)
    (fun s k k' hs hk => ⟨s.run_sketch hs ▸ s.sketch_left hk.1, s.run_finished hs hk.2.1, s.run_link hs hk.1 hk.2.2⟩)
    h ⟨hn, hfinished, hlink⟩
  obtain ⟨hleft, hfinished', hlink'⟩ := hkept
  exact ⟨hleft, ⟨scope, g.scopes.all_shown.scope n scope hfinished, g'.scopes.all_shown.scope n scope hfinished'⟩,
    ⟨link, hlink, hlink'⟩, fun x c symbol => Scopes.unseen_of_left hleft⟩

theorem Scopes.exit_left {s : Scopes} (h : s.outer ≠ []) :
    s.exit.sketch.Left s.sketch.here ∧ s.exit.all[s.sketch.here]? = some (s.current.close none) := by
  obtain ⟨before, after, hlength, -, hfinished⟩ := exit_finished h
  have hplace : (chainFinished s.exit.chain)[s.sketch.here]? = some (some (s.current.close none)) := by
    rw [hfinished, ← hlength, List.getElem?_append_right (Nat.le_refl _), Nat.sub_self, List.getElem?_cons_zero]
  refine ⟨⟨?_, ?_⟩, s.exit.all_shown.scope _ _ hplace⟩
  · have hlt := (List.getElem?_eq_some_iff.mp hplace).1
    rw [length_chainFinished] at hlt
    exact hlt
  · obtain ⟨current, outer, depth⟩ := s
    cases outer with
    | nil => exact absurd rfl h
    | cons f fs =>
      -- The open scopes have smaller numbers than the one that was entered last.
      intro hopen
      change Outline.sizes ((f :: fs).map Frame.outline) ∈ Outline.numbers ((f :: fs).map Frame.outline) at hopen
      exact Nat.lt_irrefl _ (Outline.numbers_lt hopen)

/-- A scope that is left stays as it is when it is left: to the end of the analysis, also one that fails, its
name, level, place, table and symbols and all scopes inside it are the same, and no look-up finds anything
in it. -/
theorem left_scopes_frozen {text : String} {d : Derived} (h : parseText .program text = .ok d) :
    (∃ p : Program, p.tree = d.tree) ∧
    (∀ s : Scopes, s.outer ≠ [] →
      s.exit.sketch.Left s.sketch.here ∧ s.exit.all[s.sketch.here]? = some (s.current.close none)) ∧
    ∀ p : Program, p.tree = d.tree → ∀ g g' n, p.Passes g g' → g.scopes.sketch.Left n →
      g.scopes.Keeps g'.scopes n ∧ g.scopes.Keeps (AnalysisState.start.analyse d.tree).2.scopes n := by
  refine ⟨parseText_program h, fun s => Scopes.exit_left, ?_⟩
  rintro p hp g g' n ⟨before, steps, after, hsteps, hbefore, hrun⟩ hn
  refine ⟨execute_keeps hrun hn, ?_⟩
  have hscopes : (AnalysisState.start.analyse p.tree).2.scopes = (execute p.steps .start).2.scopes :=
    congrArg Standing.scopes (analyse_standing .start p)
  rw [List.append_assoc] at hsteps
  obtain ⟨_, _, _, -, -, hrest⟩ := Program.passes_end hsteps hbefore
  rw [← hp, hscopes]
  exact execute_keeps hrest hn

def declaredAgain : Program :=
  ⟨[.statement (.block [.function (.named "f") (some ⟨.named "a", []⟩)
      [.statement (.giveBack (some (.ofPrimary (.name (.named "a")))))]]),
    .function (.named "f") none [.statement (.giveBack (some (.ofPrimary (.number "1"))))],
    .statement (.expression (.ofPrimary (.name (.named "x"))))]⟩

theorem left_scopes_frozen_declaredAgain :
    ∃ d g, parseText .program "{ fun f(a) { return a; } } fun f() { return 1; } x;" = .ok d ∧
      declaredAgain.tree = d.tree ∧ execute (declaredAgain.steps.take 12) .start = (none, g) ∧
      g.scopes.Keeps (AnalysisState.start.analyse d.tree).2.scopes 1 ∧
      (AnalysisState.start.analyse d.tree).2.scopes.returnsAt 1 "f" = some (some Ty.nil) ∧
      (AnalysisState.start.analyse d.tree).2.scopes.returnsAt 0 "f" = some (some Ty.num) := by
  obtain ⟨d, hd, htree⟩ := exists_derived_tree "{ fun f(a) { return a; } } fun f() { return 1; } x;" declaredAgain
    (by decide +kernel)
  let g := (execute (declaredAgain.steps.take 12) .start).2
  have hrun : execute (declaredAgain.steps.take 12) .start = (none, g) := Prod.ext (by decide +kernel) rfl
  have hleft : g.scopes.sketch.Left 1 := by
    constructor <;> decide +kernel
  have hpasses : declaredAgain.Passes g g :=
    ⟨declaredAgain.steps.take 12, [], declaredAgain.steps.drop 12, rfl, hrun, rfl⟩
  have hkept := ((left_scopes_frozen hd).2.2 declaredAgain htree g g 1 hpasses hleft).2
  refine ⟨d, g, hd, htree, hrun, hkept, ?_, ?_⟩
  · rw [← htree]
    decide +kernel
  · rw [← htree]
    decide +kernel

end CompiScript
