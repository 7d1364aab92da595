import CompiScript.Proofs.Operations.Runs

namespace CompiScript

def Analysis.visitRuleWith (update : Reference → Analysis Unit) (r : Rule) (manner : Manner)
    (cs : List Child) : Analysis Value :=
  match r with
  | .returnStmt => visitReturnStmt update manner cs
  | .function => visitFunction update cs
  | _ => visitRule r manner cs

mutual

def Tree.visitWith (update : Reference → Analysis Unit) : Tree → Visit
  | .leaf _ => fun _ => return .nothing
  | .node r cs => fun manner => Analysis.visitRuleWith update r manner (Tree.visitEachWith update cs)

def Tree.visitEachWith (update : Reference → Analysis Unit) : List Tree → List Child
  | [] => []
  | t :: ts => ⟨t, t.visitWith update⟩ :: Tree.visitEachWith update ts

end

mutual

theorem Tree.visitWith_updateSymbol : ∀ t : Tree, t.visitWith Analysis.updateSymbol = t.visit
  | .leaf _ => rfl
  | .node r cs => by
    funext manner
    rw [Tree.visitWith, Tree.visit, Tree.visitEachWith_updateSymbol cs]
    cases r <;> rfl

theorem Tree.visitEachWith_updateSymbol : ∀ ts : List Tree,
    Tree.visitEachWith Analysis.updateSymbol ts = Tree.visitEach ts
  | [] => rfl
  | t :: ts => by
    rw [Tree.visitEachWith, Tree.visitEach, t.visitWith_updateSymbol, Tree.visitEachWith_updateSymbol ts]

end

def Tree.childBy (v : Tree → Visit) (t : Tree) : Child :=
  ⟨t, v t⟩

theorem Tree.visitEachWith_eq_map (update : Reference → Analysis Unit) (ts : List Tree) :
    Tree.visitEachWith update ts = ts.map (Tree.childBy (Tree.visitWith update)) := by
  induction ts with
  | nil => rfl
  | cons t ts ih =>
    rw [Tree.visitEachWith, ih]
    rfl

namespace Analysis

variable (v : Tree → Visit) (ts : List Tree)

theorem rule?_childBy (r : Rule) :
    rule? r (ts.map (Tree.childBy v)) = (ts.find? fun t => t.isRule r).map (Tree.childBy v) :=
  List.find?_map ..

theorem ofRule_childBy (r : Rule) :
    ofRule r (ts.map (Tree.childBy v)) = (ts.filter fun t => t.isRule r).map (Tree.childBy v) :=
  List.filter_map

theorem textsOf_childBy (k : Kind) :
    textsOf k (ts.map (Tree.childBy v)) = (ts.filter fun t => t.isKind k).map Tree.text := by
  rw [textsOf, List.filter_map, List.map_map]
  rfl

theorem textOf?_childBy (k : Kind) :
    textOf? k (ts.map (Tree.childBy v)) = ((ts.filter fun t => t.isKind k).map Tree.text).head? := by
  rw [textOf?, textsOf_childBy]

end Analysis

/-- A relation of analyses that goes through their parts, for two ways of updating. It is taken at a base, which says
what is known of functions that a reference leads to, and counts the scopes that have been entered since. -/
structure Congruence {B : Type} (Rel : B → Nat → Nat → {α : Type} → Analysis α → Analysis α → Prop)
    (Held : B → Option Reference → Prop) (u u' : Reference → Analysis Unit) : Prop where
  held_none : ∀ {b}, Held b none
  pure : ∀ {b n} {α : Type} (x : α), Rel b n n (Pure.pure x) (Pure.pure x)
  throw : ∀ {b n m} {α : Type} (e : AnalysisError), Rel b n m (MonadExcept.throw e : Analysis α) (MonadExcept.throw e)
  bind : ∀ {b n m l} {α β : Type} {a a' : Analysis α} {k k' : α → Analysis β},
    Rel b n m a a' → (∀ x, Rel b m l (k x) (k' x)) → Rel b n l (a >>= k) (a' >>= k')
  remark : ∀ {b n} (text : String), Rel b n n (Analysis.remark text) (Analysis.remark text)
  get_bind : ∀ {b n m} {β : Type} {k k' : AnalysisState → Analysis β}, (∀ s j, k { s with log := j } = k s) →
    (∀ s, Rel b n m (k s) (k' s)) → Rel b n m (get >>= k) (get >>= k')
  print : ∀ {b n} (flag : Bool), Rel b n n (modify fun s => { s with inPrint := flag })
    (modify fun s => { s with inPrint := flag })
  postpone : ∀ {b n} (flag : Bool), Rel b n n (modify fun s => { s with inReturn := flag })
    (modify fun s => { s with inReturn := flag })
  enter : ∀ {b n} (name : String), Rel b n (n + 1) (Analysis.enter name) (Analysis.enter name)
  exit : ∀ {b n}, Rel b (n + 1) n Analysis.exit Analysis.exit
  setType : ∀ {b n} (x : String) (t : Option Ty), Rel b n n (Analysis.modifyScopes fun s => s.setType x t)
    (Analysis.modifyScopes fun s => s.setType x t)
  declare : ∀ {b n} (what : Declared) (x : String),
    Rel b n n (Analysis.declare x what.entity) (Analysis.declare x what.entity)
  function : ∀ {b n} {β : Type} {x : String} {k k' : Reference → Analysis β},
    (∀ b' f, Held b' (some f) → Rel b' 0 0 (k f) (k' f)) →
      Rel b n n (Analysis.declare x Declared.function.entity >>= k) (Analysis.declare x Declared.function.entity >>= k')
  changeAt : ∀ {b n f} {change : Symbol → Symbol}, Held b (some f) → (∀ s, (change s).entity = s.entity) →
    Rel b n n (Analysis.modifyScopes fun s => s.changeAt f change) (Analysis.modifyScopes fun s => s.changeAt f change)
  update : ∀ {b n f}, Held b (some f) → Rel b n n (u f) (u' f)

namespace Congruence

variable {B : Type} {Rel : B → Nat → Nat → {α : Type} → Analysis α → Analysis α → Prop}
  {Held : B → Option Reference → Prop} {u u' : Reference → Analysis Unit} {b : B} {n m : Nat}
  {v v' : Tree → Visit} {ts : List Tree}

section Parts

variable {α β : Type} (H : Congruence Rel Held u u')

include H

theorem remark_bind {text : String} {k k' : Unit → Analysis β} (hk : Rel b n m (k ()) (k' ())) :
    Rel b n m (Analysis.remark text >>= k) (Analysis.remark text >>= k') :=
  H.bind (H.remark text) fun _ => hk

theorem throw_bind (e : AnalysisError) {k k' : α → Analysis β} :
    Rel b n m (MonadExcept.throw e >>= k) (MonadExcept.throw e >>= k') :=
  H.throw e

theorem discard {a a' : Analysis α} (h : Rel b n m a a') : Rel b n m (discard a) (discard a') :=
  H.bind h fun _ => H.pure ()

theorem getScopes : Rel b n n Analysis.getScopes Analysis.getScopes :=
  H.get_bind (fun _ _ => rfl) fun s => H.pure s.scopes

theorem currentText : Rel b n n Analysis.currentText Analysis.currentText :=
  H.bind H.getScopes fun scopes => H.pure scopes.current.describe

theorem find? (x : String) (c : Category) : Rel b n n (Analysis.find? x c) (Analysis.find? x c) :=
  H.bind H.getScopes fun scopes => H.pure (scopes.find? x (some c))

theorem symbolOf (r : Reference) : Rel b n n (Analysis.symbolOf r) (Analysis.symbolOf r) :=
  H.bind H.getScopes fun scopes => H.pure (scopes.at? r)

theorem paramsShown (s : Option Symbol) : Rel b n n (Analysis.paramsShown s) (Analysis.paramsShown s) :=
  H.bind H.getScopes fun _ => H.pure _

theorem check (e : Except AnalysisError Unit) : Rel b n n (Analysis.check e) (Analysis.check e) := by
  cases e with
  | ok _ => exact H.pure ()
  | error e => exact H.throw e

theorem remarks (texts : List String) : Rel b n n (texts.forM Analysis.remark) (texts.forM Analysis.remark) := by
  induction texts with
  | nil => exact H.pure ()
  | cons text texts ih => exact H.remark_bind ih

theorem checkRemarking (e : Except AnalysisError (List String)) :
    Rel b n n (Analysis.checkRemarking e) (Analysis.checkRemarking e) := by
  cases e with
  | ok texts => exact H.remarks texts
  | error e => exact H.throw e

theorem required (text : Option String) : Rel b n n (Analysis.required text) (Analysis.required text) := by
  cases text with
  | none => exact H.throw _
  | some t => exact H.pure t

theorem refuseDeclared (what : Declared) (c : Category) (x : String) :
    Rel b n n (Analysis.refuseDeclared what c x) (Analysis.refuseDeclared what c x) := by
  refine H.bind (H.find? x c) fun symbol => ?_
  split
  · exact H.throw _
  · exact H.pure _

theorem typeOf {c c' : Child} (h : Rel b n n (c.visit .alone) (c'.visit .alone)) :
    Rel b n n (Analysis.typeOf c) (Analysis.typeOf c') :=
  H.bind h fun x => H.pure x.type?

end Parts

def Parts (Rel : B → Nat → Nat → {α : Type} → Analysis α → Analysis α → Prop) (Held : B → Option Reference → Prop)
    (v v' : Tree → Visit) (ts : List Tree) : Prop :=
  ∀ t ∈ ts, ∀ b n manner, Held b manner.function → Rel b n n (v t manner) (v' t manner)

theorem Parts.find {p : Tree → Bool} {t : Tree} (h : Parts Rel Held v v' ts) (ht : ts.find? p = some t) {manner : Manner}
    (hm : Held b manner.function) : Rel b n n (v t manner) (v' t manner) :=
  h t (List.mem_of_find?_eq_some ht) b n manner hm

theorem Parts.get {t : Tree} {i : Nat} (h : Parts Rel Held v v' ts) (ht : ts[i]? = some t) {manner : Manner}
    (hm : Held b manner.function) : Rel b n n (v t manner) (v' t manner) :=
  h t (List.mem_of_getElem? ht) b n manner hm

theorem Parts.filter (h : Parts Rel Held v v' ts) (p : Tree → Bool) : Parts Rel Held v v' (ts.filter p) :=
  fun t ht => h t (List.mem_filter.mp ht).1

theorem Parts.tail {t : Tree} (h : Parts Rel Held v v' (t :: ts)) : Parts Rel Held v v' ts :=
  fun t ht => h t (.tail _ ht)

end Congruence

end CompiScript
