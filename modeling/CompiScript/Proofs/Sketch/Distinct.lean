import CompiScript.Proofs.Sketch.Steps

namespace CompiScript

mutual

def Outline.Distinct : Outline → Prop
  | .mk _ _ keys children => (keys.map Prod.fst).Nodup ∧ Outline.AllDistinct children

def Outline.AllDistinct : List Outline → Prop
  | [] => True
  | o :: os => o.Distinct ∧ Outline.AllDistinct os

end

namespace Outline

theorem allDistinct_append {os ps : List Outline} :
    AllDistinct (os ++ ps) ↔ AllDistinct os ∧ AllDistinct ps := by
  induction os with
  | nil => simp [AllDistinct]
  | cons o os ih => simp [AllDistinct, ih, and_assoc]

theorem allDistinct_mem {o : Outline} {os : List Outline} (h : AllDistinct os) (ho : o ∈ os) :
    o.Distinct := by
  induction os with
  | nil => cases ho
  | cons p os ih =>
    rcases List.mem_cons.mp ho with rfl | hmem
    · exact h.1
    · exact ih h.2 hmem

theorem Distinct.adopt {o child : Outline} (ho : o.Distinct) (hc : child.Distinct) :
    (o.extend [] [child]).Distinct := by
  obtain ⟨name, level, keys, children⟩ := o
  obtain ⟨hkeys, hchildren⟩ := ho
  refine ⟨?_, allDistinct_append.mpr ⟨hchildren, hc, trivial⟩⟩
  rwa [List.append_nil]

theorem Distinct.declare {o : Outline} {x : String} {c : Category} (ho : o.Distinct)
    (hx : o.keys.lookup x = none) : (o.extend [(x, c)] []).Distinct := by
  obtain ⟨name, level, keys, children⟩ := o
  obtain ⟨hkeys, hchildren⟩ := ho
  refine ⟨?_, by rwa [List.append_nil]⟩
  have hnot : x ∉ keys.map Prod.fst := by
    intro hmem
    obtain ⟨⟨y, d⟩, hy, rfl⟩ := List.mem_map.mp hmem
    have := List.lookup_eq_none_iff.mp hx (y, d) hy
    simp at this
  simp only [List.map_append, List.map_cons, List.map_nil]
  refine List.nodup_append.mpr ⟨hkeys, by simp, ?_⟩
  intro y hy z hz
  rw [List.mem_singleton.mp hz]
  rintro rfl
  exact hnot hy

end Outline

def Sketch.Distinct (k : Sketch) : Prop :=
  k.current.Distinct ∧ Outline.AllDistinct k.outer

theorem Outline.Distinct.nodup {o : Outline} (h : o.Distinct) : (o.keys.map Prod.fst).Nodup := by
  cases o
  exact h.1

theorem lookup_eq_some_of_mem {α : Type} {keys : List (String × α)} (h : (keys.map Prod.fst).Nodup)
    {x : String} {c : α} (hx : (x, c) ∈ keys) : keys.lookup x = some c := by
  induction keys with
  | nil => cases hx
  | cons key keys ih =>
    obtain ⟨y, d⟩ := key
    simp only [List.map_cons, List.nodup_cons] at h
    rcases List.mem_cons.mp hx with heq | htail
    · cases heq
      simp
    · have hne : (x == y) = false := by
        simp only [beq_eq_false_iff_ne]
        rintro rfl
        exact h.1 (List.mem_map_of_mem htail)
      simp only [List.lookup_cons, hne]
      exact ih h.2 htail

theorem mem_of_lookup_eq_some {α : Type} {keys : List (String × α)} {x : String} {c : α}
    (h : keys.lookup x = some c) : (x, c) ∈ keys := by
  obtain ⟨l₁, l₂, rfl, -⟩ := List.lookup_eq_some_iff.mp h
  simp

theorem Table.find?_isSome (t : Table) (x : String) {c : Category} (hc : c ≠ .objects) :
    (t.find? x (some c)).isSome = (t.keys.lookup x == some c) := by
  rw [keys_lookup, find?]
  cases t.lookup x with
  | none => rfl
  | some s =>
    have hb := s.entity.belongs_iff hc
    by_cases hn : s.entity.narrowest = c
    · simp [hn, hb.mpr hn]
    · have hfalse : s.entity.belongs c = false := Bool.eq_false_iff.mpr fun h => hn (hb.mp h)
      simp [hn, hfalse]

theorem findIn_isSome (fs : List Frame) (x : String) {c : Category} (hc : c ≠ .objects) :
    (findIn fs x (some c)).isSome = true ↔ ∃ f ∈ fs, f.table.keys.lookup x = some c := by
  induction fs with
  | nil => simp [findIn]
  | cons f fs ih =>
    have hf := f.table.find?_isSome x hc
    simp only [findIn, List.mem_cons, exists_eq_or_imp, ← ih]
    cases h : f.table.find? x (some c) with
    | none =>
      have hne : f.table.keys.lookup x ≠ some c := by
        simpa [h] using hf
      simp [hne]
    | some s =>
      have heq : f.table.keys.lookup x = some c := by
        simpa [h] using hf
      simp [heq]

namespace Scopes

theorem has_of_find? {s : Scopes} {x : String} {c : Category} (hc : c ≠ .objects)
    (h : (s.find? x (some c)).isSome = true) : s.sketch.Has x c := by
  obtain ⟨f, hf, hl⟩ := (findIn_isSome s.chain x hc).mp h
  exact ⟨f.outline, List.mem_map_of_mem hf, mem_of_lookup_eq_some hl⟩

theorem find?_of_has {s : Scopes} {x : String} {c : Category} (hc : c ≠ .objects)
    (hs : s.sketch.Distinct) (h : s.sketch.Has x c) : (s.find? x (some c)).isSome = true := by
  obtain ⟨o, ho, hx⟩ := h
  have hdistinct : o.Distinct := by
    rcases List.mem_cons.mp ho with rfl | hmem
    · exact hs.1
    · exact Outline.allDistinct_mem hs.2 hmem
  obtain ⟨f, hf, rfl⟩ := List.mem_map.mp (show o ∈ s.chain.map Frame.outline from ho)
  exact (findIn_isSome s.chain x hc).mpr ⟨f, hf, lookup_eq_some_of_mem hdistinct.nodup hx⟩

end Scopes

theorem Step.run_distinct {s : Step} {g g' : Stage} (h : s.run g = .ok g')
    (hg : g.scopes.sketch.Distinct) : g'.scopes.sketch.Distinct := by
  have hsketch := s.run_sketch h
  obtain ⟨hcurrent, houter⟩ := hg
  rw [hsketch]
  cases s with
  | enter scope => exact ⟨⟨List.nodup_nil, trivial⟩, hcurrent, houter⟩
  | exit =>
    simp only [Step.sketch, Sketch.exit]
    split
    · exact ⟨hcurrent, houter⟩
    · next o os ho =>
      rw [ho] at houter
      exact ⟨houter.1.adopt hcurrent, houter.2⟩
  | declare what name =>
    have hfree := (run_declare_ok h).1
    refine ⟨hcurrent.declare ?_, houter⟩
    simp [Scopes.sketch, Frame.outline, Outline.keys, Table.keys_lookup, hfree]
  | _ => exact ⟨hcurrent, houter⟩

theorem execute_distinct {steps : List Step} {g g' : Stage} (h : execute steps g = (none, g'))
    (hg : g.scopes.sketch.Distinct) : g'.scopes.sketch.Distinct := by
  induction steps generalizing g with
  | nil => cases h; exact hg
  | cons s steps ih =>
    obtain ⟨g₁, hs, hrest⟩ := execute_cons_ok h
    exact ih hrest (s.run_distinct hs hg)

end CompiScript
