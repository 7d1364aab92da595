import CompiScript.Proofs.Drawing.Items
import CompiScript.Proofs.Reading.Statements

namespace CompiScript

namespace Dot

open Dot.Graph

section Recovery

variable {k : Nat} {t : Tree} {rest : List Item}

def Stops (k : Nat) (rest : List Item) : Prop :=
  ∀ name label source target tail, rest = .node name label :: .edge source target :: tail →
    ∃ i, i < k ∧ source = nodeName i

theorem Stops.mono {k l : Nat} (h : Stops k rest) (hkl : k ≤ l) : Stops l rest := by
  intro name label source target tail hrest
  obtain ⟨i, hi, hsource⟩ := h name label source target tail hrest
  exact ⟨i, by omega, hsource⟩

theorem stops_belowAll {parent next start : Nat} (hlt : parent < next) (ts : List Tree) (hrest : Stops parent rest) :
    Stops next (belowAll parent start ts ++ rest) := by
  cases ts with
  | nil => exact hrest.mono (by omega)
  | cons t ts =>
    rintro name label source target tail htail
    simp only [belowAll, List.cons_append, List.cons.injEq, Item.edge.injEq] at htail
    exact ⟨parent, hlt, htail.2.1.1.symm⟩

theorem readBelow_stops (h : Stops k rest) (fuel : Nat) : readBelow fuel (nodeName k) rest = ([], rest) := by
  rw [readBelow.eq_def]
  split
  · next fuel name label source target tail =>
    obtain ⟨i, hi, rfl⟩ := h name label source target tail rfl
    rw [if_neg]
    intro hname
    have := nodeName_inj.mp hname
    omega
  · rfl

mutual

theorem readBelow_below (k : Nat) (t : Tree) (rest : List Item) (fuel : Nat)
    (hlabel : ∀ s ∈ t.subtrees, label s = s.caption) (hrest : Stops k rest) (hfuel : (below k t).length ≤ fuel) :
    readBelow fuel (nodeName k) (below k t ++ rest) = (Tree.labelledAll t.children, rest) := by
  cases t with
  | leaf x => exact readBelow_stops hrest fuel
  | node r cs =>
    refine readBelow_belowAll k (k + 1) cs rest fuel (by omega) ?_ hrest hfuel
    exact fun s hs => hlabel s (.tail _ hs)

theorem readBelow_belowAll (parent next : Nat) (ts : List Tree) (rest : List Item) (fuel : Nat) (hlt : parent < next)
    (hlabel : ∀ s ∈ Tree.subtreesAll ts, label s = s.caption) (hrest : Stops parent rest)
    (hfuel : (belowAll parent next ts).length ≤ fuel) :
    readBelow fuel (nodeName parent) (belowAll parent next ts ++ rest) = (Tree.labelledAll ts, rest) := by
  cases ts with
  | nil => exact readBelow_stops hrest fuel
  | cons t ts =>
    obtain ⟨ht, hts⟩ : (∀ s ∈ t.subtrees, label s = s.caption) ∧ ∀ s ∈ Tree.subtreesAll ts, label s = s.caption :=
      List.forall_mem_append.mp hlabel
    simp only [belowAll, List.length_cons, List.length_append] at hfuel
    obtain ⟨fuel, rfl⟩ : ∃ n, fuel = n + 1 := ⟨fuel - 1, by omega⟩
    -- Behind the children of the first tree come its siblings, whose edges start at the lower number of the parent.
    have hchildren := readBelow_below next t (belowAll parent (next + t.subtrees.length) ts ++ rest) fuel ht
      (stops_belowAll hlt ts hrest) (by omega)
    have hsiblings := readBelow_belowAll parent (next + t.subtrees.length) ts rest fuel (by omega) hts hrest (by omega)
    have hroot : label t = t.caption := ht t t.mem_subtrees_self
    simp only [belowAll, List.cons_append, List.append_assoc, readBelow, if_true, hchildren, hsiblings, hroot,
      Tree.labelledAll, Tree.labelled_eq]

end

theorem ofLine_items (hplain : ∀ s ∈ t.subtrees, '\\' ∉ (label s).toList) :
    ∀ i ∈ items k t, Item.ofLine i.line = some i := by
  intro i hi
  cases i with
  | node name text =>
    have hnode : (name, text) ∈ (items k t).filterMap Item.node? := List.mem_filterMap.mpr ⟨_, hi, rfl⟩
    rw [node?_items] at hnode
    obtain ⟨⟨s, n⟩, hs, heq⟩ := List.mem_map.mp hnode
    cases heq
    exact ofLine_node n (hplain s (List.fst_mem_of_mem_zipIdx hs))
  | edge source target =>
    have hedge : (source, target) ∈ (items k t).filterMap Item.edge? := List.mem_filterMap.mpr ⟨_, hi, rfl⟩
    rw [edge?_items] at hedge
    obtain ⟨⟨m, n⟩, -, heq⟩ := List.mem_map.mp hedge
    cases heq
    exact ofLine_edge m n

theorem mapM_ofLine {is : List Item} (h : ∀ i ∈ is, Item.ofLine i.line = some i) :
    (is.map Item.line).mapM Item.ofLine = some is := by
  induction is with
  | nil => rfl
  | cons i is ih =>
    obtain ⟨hi, his⟩ := List.forall_mem_cons.mp h
    rw [List.map_cons, List.mapM_cons, hi, ih his]
    rfl

theorem recover_items (hlabel : ∀ s ∈ t.subtrees, label s = s.caption)
    (hplain : ∀ s ∈ t.subtrees, '\\' ∉ (label s).toList) :
    recover ((items k t).map Item.line) = some t.labelled := by
  have hbelow := readBelow_below k t [] _ hlabel nofun (Nat.le_refl _)
  have hroot : label t = t.caption := hlabel t t.mem_subtrees_self
  rw [List.append_nil] at hbelow
  rw [recover, mapM_ofLine (ofLine_items hplain)]
  simp only [bind, Option.bind, items, hbelow, hroot, Tree.labelled_eq]

end Recovery

end Dot

namespace Tree

theorem subtreesAll_append (xs ys : List Tree) : subtreesAll (xs ++ ys) = subtreesAll xs ++ subtreesAll ys := by
  induction xs with
  | nil => rfl
  | cons t xs ih => rw [List.cons_append, subtreesAll, subtreesAll, ih, List.append_assoc]

mutual

theorem mem_leaves_of_leaf {t : Tree} {x : Lexeme} (h : leaf x ∈ t.subtrees) : x ∈ t.leaves := by
  cases t with
  | leaf y =>
    cases List.mem_singleton.mp h
    exact .head _
  | node r cs =>
    rcases List.mem_cons.mp h with h | h
    · cases h
    · exact mem_leavesAll_of_leaf h

theorem mem_leavesAll_of_leaf {ts : List Tree} {x : Lexeme} (h : leaf x ∈ subtreesAll ts) : x ∈ leavesAll ts := by
  cases ts with
  | nil => cases h
  | cons t ts =>
    rcases List.mem_append.mp h with h | h
    · exact List.mem_append_left _ (mem_leaves_of_leaf h)
    · exact List.mem_append_right _ (mem_leavesAll_of_leaf h)

end

mutual

theorem pairs_snd (k : Nat) (t : Tree) : (t.pairs k).map Prod.snd = List.range' (k + 1) (t.subtrees.length - 1) := by
  cases t with
  | leaf x => rfl
  | node r cs => exact pairsAll_snd k (k + 1) cs

theorem pairsAll_snd (parent next : Nat) (ts : List Tree) :
    (pairsAll parent next ts).map Prod.snd = List.range' next (subtreesAll ts).length := by
  cases ts with
  | nil => rfl
  | cons t ts =>
    have hpos : 0 < t.subtrees.length := by
      cases t <;> simp [subtrees]
    obtain ⟨n, hn⟩ : ∃ n, t.subtrees.length = n + 1 := ⟨t.subtrees.length - 1, by omega⟩
    rw [pairsAll, List.map_cons, List.map_append, pairs_snd, pairsAll_snd, subtreesAll, List.length_append, hn,
      ← List.range'_append_1, List.range'_succ]
    rfl

end

end Tree

theorem Spells.label_eq {p : Phrase} {ts : List Tree} (h : Spells p ts) :
    ∀ s ∈ Tree.subtreesAll ts, Dot.label s = s.caption := by
  induction h with
  | nothing => exact fun _ hs => nomatch hs
  | token h hx => simp [Tree.subtreesAll, Tree.subtrees, Dot.label, Tree.caption]
  | oneOf h hx => simp [Tree.subtreesAll, Tree.subtrees, Dot.label, Tree.caption]
  | @rule r cs h ih =>
    -- No rule is read from nothing.
    have hne : cs ≠ [] := by
      rintro rfl
      have hnil : Gives r.phrase [] := h.derives.gives rfl
      rw [gives_nil_iff, Rule.nullable_phrase] at hnil
      cases hnil
    obtain ⟨c, cs, rfl⟩ := List.exists_cons_of_ne_nil hne
    simp only [Tree.subtreesAll, Tree.subtrees, List.append_nil] at ih ⊢
    exact List.forall_mem_cons.mpr ⟨rfl, ih⟩
  | seq ha hb iha ihb =>
    rw [Tree.subtreesAll_append]
    exact List.forall_mem_append.mpr ⟨iha, ihb⟩
  | none => exact fun _ hs => nomatch hs
  | some h ih => exact ih
  | nil => exact fun _ hs => nomatch hs
  | cons ha hm iha ihm =>
    rw [Tree.subtreesAll_append]
    exact List.forall_mem_append.mpr ⟨iha, ihm⟩
  | left h ih => exact ih
  | right h ih => exact ih

section Parsed

variable {start : Rule} {text : String} {d : Derived} (h : parseText start text = .ok d)

include h

theorem parseText_label_eq : ∀ s ∈ d.tree.subtrees, Dot.label s = s.caption := by
  have hlabel := (parseText_spells h).label_eq
  rwa [Tree.subtreesAll, Tree.subtreesAll, List.append_nil] at hlabel

theorem parseText_plain : ∀ s ∈ d.tree.subtrees, '\\' ∉ (Dot.label s).toList := by
  intro s hs
  rw [parseText_label_eq h s hs]
  cases s with
  | leaf x =>
    have hx := Tree.mem_leaves_of_leaf hs
    obtain ⟨trees, used, rest, n, htree, -, htokens, -, hleaves⟩ := parseText_covers h
    rw [htree, Tree.leaves, hleaves] at hx
    rcases List.mem_append.mp hx with hx | hx
    · obtain ⟨t, ht, rfl⟩ := List.mem_map.mp hx
      have hmem : t ∈ (Lexed.ofString text).tokens := htokens ▸ List.mem_append_left _ ht
      exact LexicalRule.notMem_backslash (Lexed.ofString_mem_language text t hmem)
    · rw [List.eq_of_mem_replicate hx]
      decide +kernel
  | node r cs =>
    have hall : ∀ r ∈ Rule.all, '\\' ∉ r.label.toList := by decide +kernel
    exact hall r r.mem_all

end Parsed

open Dot Dot.Graph in
/-- A tree adds to a drawing one line for each of its nodes, numbered in preorder, and one for each pair of a node and
its child, and the tree can be read back from these lines. -/
theorem drawing_recovered {start : Rule} {text : String} {d : Derived} (h : parseText start text = .ok d) (g : Graph) :
    (g.visit none d.tree).1 = nodeName g.count ∧
      (g.visit none d.tree).2.count = g.count + d.tree.subtrees.length ∧
      (∃ is : List Item, (g.visit none d.tree).2.body = g.body ++ is.map Item.line ∧
        is.filterMap Item.node? = (d.tree.subtrees.zipIdx g.count).map (fun s => (nodeName s.2, s.1.caption)) ∧
        is.filterMap Item.edge? = (d.tree.pairs g.count).map (fun e => (nodeName e.1, nodeName e.2)) ∧
        (d.tree.pairs g.count).map Prod.snd = List.range' (g.count + 1) (d.tree.subtrees.length - 1) ∧
        recover (is.map Item.line) = some d.tree.labelled) ∧
      ∀ (start' : Rule) (text' : String) (d' : Derived) (g' : Graph) (lines : List String),
        parseText start' text' = .ok d' → (g.visit none d.tree).2.body = g.body ++ lines →
        (g'.visit none d'.tree).2.body = g'.body ++ lines → d.tree.labelled = d'.tree.labelled := by
  have hlabel := parseText_label_eq h
  have hrecover := recover_items (k := g.count) hlabel (parseText_plain h)
  refine ⟨rfl, count_addTree g none d.tree, ⟨items g.count d.tree, body_visit g d.tree, ?_, edge?_items _ _,
    d.tree.pairs_snd g.count, hrecover⟩, ?_⟩
  · rw [node?_items]
    refine List.map_congr_left fun s hs => ?_
    rw [hlabel s.1 (List.fst_mem_of_mem_zipIdx hs)]
  · intro start' text' d' g' lines h' hlines hlines'
    have hrecover' := recover_items (k := g'.count) (parseText_label_eq h') (parseText_plain h')
    rw [body_visit] at hlines hlines'
    rw [List.append_cancel_left hlines', ← List.append_cancel_left hlines, hrecover] at hrecover'
    exact Option.some.inj hrecover'

open Dot Dot.Graph in
theorem drawing_recovered_two_lines : ∃ d, parseText .program "node = \"a\nb\" < 1.5;" = .ok d ∧
    ((⟨3, ["\n"]⟩ : Graph).visit none d.tree).1 = nodeName 3 ∧
    ((⟨3, ["\n"]⟩ : Graph).visit none d.tree).2.count = 3 + d.tree.subtrees.length ∧
    ∃ is : List Item, ((⟨3, ["\n"]⟩ : Graph).visit none d.tree).2.body = "\n" :: is.map Item.line ∧
      recover (is.map Item.line) = some d.tree.labelled := by
  obtain ⟨d, hd, -⟩ := Syntax.exists_derived "node = \"a\nb\" < 1.5;" (fun _ => true) (by decide +kernel)
  obtain ⟨hname, hcount, ⟨is, hbody, -, -, -, hrecover⟩, -⟩ := drawing_recovered hd ⟨3, ["\n"]⟩
  exact ⟨d, hd, hname, hcount, is, hbody, hrecover⟩

end CompiScript
