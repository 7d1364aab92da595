import CompiScript.Proofs.Links.Outlines

namespace CompiScript

open Syntax

inductive ScopeCall where
  | enter (name : String)
  | exit
  | add (symbol : Symbol)
  | find (name : String) (category : Option Category)
  | update (name : String) (symbol : Symbol) (category : Option Category)

namespace ScopeCall

def run (s : Scopes) : ScopeCall → Except SymbolError (Option Symbol) × Scopes
  | enter name => (.ok none, s.enter name)
  | exit => (.ok none, s.exit)
  | add symbol =>
    match s.add symbol with
    | .ok s' => (.ok none, s')
    | .error e => (.error e, s)
  | find name category => (.ok (s.find? name category), s)
  | update name symbol category =>
    match s.update name symbol category with
    | .ok s' => (.ok none, s')
    | .error e => (.error e, s)

def runAll : List ScopeCall → Scopes → Scopes
  | [], s => s
  | call :: calls, s => runAll calls (call.run s).2

def relink (k : Links) : ScopeCall → Links
  | enter name => k.enter name
  | exit => k.exit
  | _ => k

theorem run_links (s : Scopes) (call : ScopeCall) : (call.run s).2.links = call.relink s.links := by
  cases call with
  | enter name => exact s.links_enter name
  | exit => exact s.links_exit
  | add symbol =>
    simp only [run]
    split
    · next h => exact Scopes.links_add h
    · rfl
  | find name category => rfl
  | update name symbol category =>
    simp only [run]
    split
    · next h => exact Scopes.links_update h
    · rfl

theorem relink_sound {k : Links} (h : k.Sound) (call : ScopeCall) : (call.relink k).Sound := by
  cases call with
  | enter name => exact h.enter name
  | exit => exact h.exit
  | _ => exact h

theorem runAll_sound (calls : List ScopeCall) {s : Scopes} (h : s.links.Sound) : (runAll calls s).links.Sound := by
  induction calls generalizing s with
  | nil => exact h
  | cons call calls ih =>
    apply ih
    rw [run_links]
    exact relink_sound h call

end ScopeCall

theorem Scopes.start_sound : Scopes.start.links.Sound := by
  rw [Scopes.links_start]
  have honly : ∀ (i : Nat) (l : Link), [Link.mk "global" 0 none []][i]? = some l →
      i = 0 ∧ l = ⟨"global", 0, none, []⟩ := by
    intro i l hl
    cases i with
    | zero => exact ⟨rfl, (Option.some.inj hl).symm⟩
    | succ i => cases hl
  refine ⟨⟨_, rfl, rfl, rfl, rfl⟩, ?_, ?_, ?_, ?_, ⟨_, rfl, rfl⟩⟩
  · intro i l hl hi
    exact absurd (honly i l hl).1 (Nat.ne_of_gt hi)
  · intro j p i hp hi
    rw [(honly j p hp).2] at hi
    cases hi
  · intro i l j hl
    rw [(honly i l hl).2]
    constructor
    · intro hparent
      cases hparent
    · rintro ⟨p, hp, hi⟩
      rw [(honly j p hp).2] at hi
      cases hi
  · intro i hi hlt
    exact absurd (Nat.lt_one_iff.mp hlt) (Nat.ne_of_gt hi)

theorem Step.run_links_sound {s : Step} {g g' : Stage} (h : s.run g = .ok g') (hg : g.scopes.links.Sound) :
    g'.scopes.links.Sound := by
  have hsketch := s.run_sketch h
  rw [Scopes.links_eq, hsketch]
  rw [Scopes.links_eq] at hg
  cases s with
  | enter scope => rw [Step.sketch, Sketch.links_enter]; exact hg.enter scope
  | exit =>
    rw [Step.sketch, ← Scopes.exit_sketch, ← Scopes.links_eq, Scopes.links_exit, Scopes.links_eq]
    exact hg.exit
  | declare what name => rw [Step.sketch, Sketch.links_extend]; exact hg
  | _ => exact hg

theorem execute_links_sound (steps : List Step) {g : Stage} (hg : g.scopes.links.Sound) :
    (execute steps g).2.scopes.links.Sound := by
  induction steps generalizing g with
  | nil => exact hg
  | cons s steps ih =>
    simp only [execute]
    cases hs : s.run g with
    | ok g' => exact ih (s.run_links_sound hs hg)
    | error e => exact hg

/-- After any calls the links are sound, the calls change them as calls on linked records would, and an
analysis that begins with sound links has sound links at every point and at its end. -/
theorem scope_links_agree (calls : List ScopeCall) :
    (ScopeCall.runAll calls .start).links.Sound ∧
      (∀ i l, (ScopeCall.runAll calls .start).links.scopes[i]? = some l →
        (ScopeCall.runAll calls .start).links.climb l.level i = some 0) ∧
      (∀ call s, (ScopeCall.run s call).2.links = call.relink s.links) ∧
      (∀ s : Scopes, s.links.current = 0 → s.exit = s) ∧
      ∀ text d, parseText .program text = .ok d → ∃ p : Program, p.tree = d.tree ∧
        ∀ s : AnalysisState, s.scopes.links.Sound →
          (s.analyse d.tree).2.scopes.links.Sound ∧
            ∀ before after, p.steps = before ++ after →
              (execute before ⟨s.standing, none⟩).2.scopes.links.Sound := by
  have hsound := ScopeCall.runAll_sound calls Scopes.start_sound
  refine ⟨hsound, fun i l hl => hsound.climb_level hl, fun call s => call.run_links s,
    fun s => Scopes.exit_of_current_zero, ?_⟩
  intro text d h
  obtain ⟨p, hp⟩ := parseText_program h
  refine ⟨p, hp, ?_⟩
  intro s hs
  refine ⟨?_, fun before _ _ => execute_links_sound before hs⟩
  have hscopes : (s.analyse p.tree).2.scopes = (execute p.steps ⟨s.standing, none⟩).2.scopes :=
    congrArg Standing.scopes (analyse_standing s p)
  rw [← hp, hscopes]
  exact execute_links_sound p.steps hs

theorem scope_links_agree_after_refusals :
    (ScopeCall.runAll [.enter "a", .exit, .exit, .add (.ofEntity "x" (.variable none)),
      .add (.ofEntity "x" (.variable none)), .update "y" (.ofEntity "y" (.variable none)) none, .enter "b",
      .enter "c"] .start).links.Sound ∧
    ∃ d, parseText .program "{ { return; } }" = .ok d ∧
      (AnalysisState.start.analyse d.tree).2.scopes.depth = 2 ∧
      (AnalysisState.start.analyse d.tree).2.scopes.links.Sound := by
  obtain ⟨d, hd, hdepth⟩ := exists_derived "{ { return; } }"
    (fun d => decide ((AnalysisState.start.analyse d.tree).2.scopes.depth = 2)) (by decide +kernel)
  obtain ⟨hcalls, -, -, -, hanalysis⟩ := scope_links_agree [.enter "a", .exit, .exit,
    .add (.ofEntity "x" (.variable none)), .add (.ofEntity "x" (.variable none)),
    .update "y" (.ofEntity "y" (.variable none)) none, .enter "b", .enter "c"]
  obtain ⟨p, -, hpoints⟩ := hanalysis _ d hd
  exact ⟨hcalls, d, hd, of_decide_eq_true hdepth, (hpoints .start Scopes.start_sound).1⟩

end CompiScript
