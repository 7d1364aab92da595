import CompiScript.Proofs.Congruence.Visits

namespace CompiScript

namespace Log.Journal

def noteAll (j : Journal) (rs : List Record) : Journal :=
  rs.foldl note j

theorem lowest_note (j : Journal) (r : Record) : (j.note r).lowest = j.lowest := by
  unfold note
  split <;> rfl

theorem records_note (j : Journal) (r : Record) :
    (j.note r).records = j.records ++ [r].filter fun r => decide (j.lowest ≤ (r.level.number : Int)) := by
  unfold note
  split
  · next h => simp [records, h]
  · next h => simp [records, h]

theorem records_noteAll (j : Journal) (rs : List Record) :
    (j.noteAll rs).records = j.records ++ rs.filter fun r => decide (j.lowest ≤ (r.level.number : Int)) := by
  induction rs generalizing j with
  | nil => simp [noteAll]
  | cons r rs ih =>
    change ((j.note r).noteAll rs).records = _
    rw [ih, records_note, lowest_note, List.append_assoc, ← List.filter_append, List.singleton_append]

def remarkAll (j : Journal) (texts : List String) : Journal :=
  j.noteAll (texts.map fun text => ⟨.debug, text⟩)

theorem remarkAll_append (j : Journal) (texts more : List String) :
    j.remarkAll (texts ++ more) = (j.remarkAll texts).remarkAll more := by
  simp only [remarkAll, noteAll, List.map_append, List.foldl_append]

end Log.Journal

def LogBlind {α : Type} (a : Analysis α) : Prop :=
  ∀ g : Standing, ∃ (r : Except AnalysisError α) (g' : Standing) (texts : List String), ∀ j : Log.Journal,
    a.runFrom (g.withLog j) = (r, g'.withLog (j.remarkAll texts))

namespace LogBlind

variable {α β : Type} {a : Analysis α} {k : α → Analysis β}

theorem pure (v : α) : LogBlind (Pure.pure v : Analysis α) :=
  fun g => ⟨.ok v, g, [], fun _ => rfl⟩

theorem throw (e : AnalysisError) : LogBlind (MonadExcept.throw e : Analysis α) :=
  fun g => ⟨.error e, g, [], fun _ => rfl⟩

theorem bind (ha : LogBlind a) (hk : ∀ v, LogBlind (k v)) : LogBlind (a >>= k) := by
  intro g
  obtain ⟨r, g₁, texts, hrun⟩ := ha g
  cases r with
  | error e =>
    refine ⟨.error e, g₁, texts, fun j => ?_⟩
    rw [Analysis.runFrom_bind, hrun j]
  | ok v =>
    obtain ⟨r, g₂, more, hmore⟩ := hk v g₁
    refine ⟨r, g₂, texts ++ more, fun j => ?_⟩
    rw [Analysis.runFrom_bind, hrun j, Log.Journal.remarkAll_append]
    exact hmore (j.remarkAll texts)

theorem remark (text : String) : LogBlind (Analysis.remark text) :=
  fun g => ⟨.ok (), g, [text], fun _ => rfl⟩

theorem remark_bind {text : String} {k : Unit → Analysis β} (hk : LogBlind (k ())) :
    LogBlind (Analysis.remark text >>= k) :=
  (LogBlind.remark text).bind fun _ => hk

theorem discard (ha : LogBlind a) : LogBlind (discard a) :=
  ha.bind fun _ => .pure ()

theorem get_bind {k : AnalysisState → Analysis β} (hlog : ∀ s j, k { s with log := j } = k s)
    (hk : ∀ s, LogBlind (k s)) : LogBlind (get >>= k) := by
  intro g
  obtain ⟨r, g', texts, hrun⟩ := hk (g.withLog AnalysisState.start.log) g
  refine ⟨r, g', texts, fun j => ?_⟩
  rw [← hrun j, ← hlog _ j]
  rfl

theorem modify {f : AnalysisState → AnalysisState} (f' : Standing → Standing)
    (h : ∀ g j, f (g.withLog j) = (f' g).withLog j) : LogBlind (modify f) := by
  intro g
  refine ⟨.ok (), f' g, [], fun j => ?_⟩
  rw [Log.Journal.remarkAll, ← h]
  rfl

theorem modifyScopes (f : Scopes → Scopes) : LogBlind (Analysis.modifyScopes f) :=
  .modify (fun g => { g with scopes := f g.scopes }) fun _ _ => rfl

theorem getScopes : LogBlind Analysis.getScopes :=
  .get_bind (fun _ _ => rfl) fun s => .pure s.scopes

theorem tryScopes (f : Scopes → Except SymbolError Scopes) : LogBlind (Analysis.tryScopes f) := by
  refine getScopes.bind fun scopes => ?_
  split
  · exact .modifyScopes _
  · exact .throw _

theorem declare (name : String) (entity : Entity) : LogBlind (Analysis.declare name entity) :=
  (tryScopes _).bind fun _ => getScopes.bind fun _ => .pure _

def Same (_ : Unit) (_ _ : Nat) {α : Type} (a a' : Analysis α) : Prop :=
  a = a' ∧ LogBlind a

theorem congruence : Congruence Same (fun _ _ => True) Analysis.updateSymbol Analysis.updateSymbol where
  held_none := trivial
  pure x := ⟨rfl, .pure x⟩
  throw e := ⟨rfl, .throw e⟩
  bind := by
    intro _ _ _ _ _ _ a a' k k' ha hk
    refine ⟨?_, ha.2.bind fun x => (hk x).2⟩
    rw [ha.1, funext fun x => (hk x).1]
  remark text := ⟨rfl, .remark text⟩
  get_bind := by
    intro _ _ _ _ k k' hlog hk
    refine ⟨?_, .get_bind hlog fun s => (hk s).2⟩
    rw [funext fun s => (hk s).1]
  print flag := ⟨rfl, .modify (fun g => { g with inPrint := flag }) fun _ _ => rfl⟩
  postpone flag := ⟨rfl, .modify (fun g => { g with inReturn := flag }) fun _ _ => rfl⟩
  enter _ := ⟨rfl, .modifyScopes _⟩
  exit := ⟨rfl, .modifyScopes _⟩
  setType _ _ := ⟨rfl, .modifyScopes _⟩
  declare what x := ⟨rfl, .declare x what.entity⟩
  function := by
    intro _ _ _ x k k' hk
    refine ⟨?_, (declare x _).bind fun f => (hk () f trivial).2⟩
    rw [funext fun f => (hk () f trivial).1]
  changeAt _ _ := ⟨rfl, .modifyScopes _⟩
  update _ := ⟨rfl, .tryScopes _⟩

end LogBlind

theorem Tree.visit_logBlind (t : Tree) (manner : Manner) : LogBlind (t.visit manner) := by
  rw [← t.visitWith_updateSymbol]
  exact (LogBlind.congruence.visit t () 0 manner trivial).2

end CompiScript
