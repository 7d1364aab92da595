import CompiScript.Proofs.Dependence.Flag

namespace CompiScript

open Syntax Step

namespace Syntax

def Program.Flat (p : Program) : Prop :=
  ∀ pl name ps body, p.Contains pl → pl.part = .function name (some ps) body → Declaration.declaresAny body = false

theorem Enclosure.mem_pass {declares : Bool} {around : List Enclosure} {e : Enclosure}
    (h : e ∈ Enclosure.pass declares around) : ∃ e' ∈ around, e'.params = e.params := by
  cases around with
  | nil => cases h
  | cons e' outer =>
    rcases List.mem_cons.mp h with rfl | hmem
    · exact ⟨e', .head _, rfl⟩
    · exact ⟨e, .tail _ hmem, rfl⟩

theorem Place.Within.declares {pl q : Place} (h : pl.Within q) :
    (q.part.declares = true → pl.part.declares = true) ∧
      ∃ b, q.around = Enclosure.pass b pl.around ∧ (b = true → pl.part.declares = true) := by
  cases h with
  | block hpart =>
    rw [hpart, Declaration.declares, Statement.declares, Declaration.declaresAny_append, Declaration.declaresAny]
    exact ⟨fun hd => by simp_all [inner], _, rfl, fun hds => by rw [hds, Bool.true_or]⟩
  | forBody hpart => exact ⟨fun hbody => by rw [hpart]; exact hbody, false, rfl, fun h => absurd h Bool.false_ne_true⟩
  | ifThen hpart => exact ⟨fun hyes => by rw [hpart]; exact hyes, false, rfl, fun h => absurd h Bool.false_ne_true⟩
  | ifYes hpart =>
    rw [hpart, Declaration.declares, Statement.declares]
    exact ⟨fun hyes => Bool.or_eq_true_iff.mpr (.inl hyes), false, rfl, fun h => absurd h Bool.false_ne_true⟩
  | ifNo hpart =>
    rw [hpart, Declaration.declares, Statement.declares]
    exact ⟨fun hno => Bool.or_eq_true_iff.mpr (.inr hno), _, rfl, fun hyes => Bool.or_eq_true_iff.mpr (.inl hyes)⟩
  | whileBody hpart => exact ⟨fun hbody => by rw [hpart]; exact hbody, false, rfl, fun h => absurd h Bool.false_ne_true⟩

structure Place.Sheltered (pl : Place) : Prop where
  declaring : pl.part.declares = true → ∀ e ∈ pl.around, e.params = none
  outer : ∀ e outer, pl.around = e :: outer → ∀ e' ∈ outer, e'.params = none
  earlier : ∀ e outer, pl.around = e :: outer → e.params.isSome = true → e.earlier = false

theorem Place.Sheltered.within {pl q : Place} (h : pl.Sheltered) (hq : pl.Within q) : q.Sheltered := by
  obtain ⟨hdeclares, b, haround, hb⟩ := hq.declares
  obtain ⟨part, scope, owner, around, before, after⟩ := pl
  refine ⟨?_, ?_, ?_⟩
  · intro hdeclaring e he
    rw [haround] at he
    obtain ⟨e', he', hparams⟩ := Enclosure.mem_pass he
    rw [← hparams]
    exact h.declaring (hdeclares hdeclaring) e' he'
  · intro e outer hcons
    rw [haround] at hcons
    cases around with
    | nil => cases hcons
    | cons first rest =>
      cases hcons
      exact h.outer first _ rfl
  · intro e outer hcons hparams
    rw [haround] at hcons
    cases around with
    | nil => cases hcons
    | cons first rest =>
      cases hcons
      have hfirst : first.earlier = false := h.earlier first _ rfl hparams
      have hpassed : b = false := by
        apply Bool.eq_false_iff.mpr
        intro htrue
        have hnone : first.params = none := h.declaring (hb htrue) first (.head _)
        have hsome : first.params.isSome = true := hparams
        rw [hnone] at hsome
        cases hsome
      show (first.earlier || b) = false
      rw [hfirst, hpassed, Bool.false_or]

theorem Place.Sheltered.inBody {pl q : Place} (h : pl.Sheltered) (hq : pl.InBody q)
    (hflat : ∀ name ps body, pl.part = .function name (some ps) body → Declaration.declaresAny body = false) :
    q.Sheltered := by
  obtain @⟨name, params, ds, es, d, hpart⟩ := hq
  have hnone : ∀ e ∈ pl.around, e.params = none := h.declaring (by rw [hpart, Declaration.declares])
  have hbody : params.isSome = true → Declaration.declaresAny ds = false ∧ d.declares = false := by
    intro hsome
    obtain ⟨ps, rfl⟩ := Option.isSome_iff_exists.mp hsome
    have hall := hflat name ps _ hpart
    rw [Declaration.declaresAny_append, Declaration.declaresAny] at hall
    simp only [Bool.or_eq_false_iff] at hall
    exact ⟨hall.1, hall.2.1⟩
  refine ⟨?_, ?_, ?_⟩
  · intro hd e he
    rcases List.mem_cons.mp he with rfl | hmem
    · apply Option.not_isSome_iff_eq_none.mp
      intro hsome
      have hfalse := (hbody hsome).2
      rw [show d.declares = true from hd] at hfalse
      cases hfalse
    · exact hnone e hmem
  · intro e outer hcons
    cases hcons
    exact hnone
  · intro e outer hcons hsome
    cases hcons
    exact (hbody hsome).1

theorem Program.Contains.sheltered {p : Program} (hflat : p.Flat) {pl : Place} (h : p.Contains pl) : pl.Sheltered := by
  induction h with
  | top hbody =>
    exact ⟨fun _ _ he => (nomatch he), fun _ _ hcons => (nomatch hcons), fun _ _ hcons => (nomatch hcons)⟩
  | within _ hq ih => exact ih.within hq
  | inBody hpl hq ih => exact ih.inBody hq fun name ps body hpart => hflat _ name ps body hpl hpart

theorem Enclosure.flag_eq_false {around : List Enclosure} (h : ∀ e ∈ around, e.params = none) :
    Enclosure.flag around = false := by
  induction around with
  | nil => rfl
  | cons e outer ih =>
    rw [flag, h e (.head outer), ih fun e' he' => h e' (.tail e he')]
    simp

theorem Place.Sheltered.flag_around {pl : Place} (h : pl.Sheltered) :
    Enclosure.flag pl.around = true ↔ ∃ e outer, pl.around = e :: outer ∧ e.params.isSome = true := by
  obtain ⟨part, scope, owner, around, before, after⟩ := pl
  cases around with
  | nil => simp [Enclosure.flag]
  | cons e outer =>
    have houter : Enclosure.flag outer = false := Enclosure.flag_eq_false (h.outer e outer rfl)
    rw [Enclosure.flag, houter, Bool.or_false, Bool.and_eq_true]
    constructor
    · exact fun hflag => ⟨e, outer, rfl, hflag.2⟩
    · rintro ⟨e', outer', hcons, hsome⟩
      cases hcons
      exact ⟨by rw [h.earlier e outer rfl hsome, Bool.not_false], hsome⟩

def Declaration.IsFunction (d : Declaration) : Prop :=
  ∃ name params body, d = .function name params body

section First

variable {p : Program}

def HasFirst (p : Program) (b : Bool) : Prop :=
  ∃ q, p.Contains q ∧ q.part.IsFunction ∧ Enclosure.flag q.around = b

mutual

theorem Statement.hasFirst : ∀ (s : Statement) (pl : Place), p.Contains pl → pl.part = .statement s →
    s.declares = true → HasFirst p (Enclosure.flag pl.around)
  | .expression _, _, _, _, hs => nomatch hs
  | .forLoop head body, pl, hpl, hpart, hs => by
    have hfirst := body.hasFirst _ (hpl.within (.forBody hpart)) rfl hs
    rwa [Place.inner, Enclosure.flag_pass, Bool.not_false, Bool.and_true] at hfirst
  | .ifThen condition yes, pl, hpl, hpart, hs => by
    have hfirst := yes.hasFirst _ (hpl.within (.ifThen hpart)) rfl hs
    rwa [Place.inner, Enclosure.flag_pass, Bool.not_false, Bool.and_true] at hfirst
  | .ifElse condition yes no, pl, hpl, hpart, hs => by
    by_cases hyes : yes.declares = true
    · have hfirst := yes.hasFirst _ (hpl.within (.ifYes hpart)) rfl hyes
      rwa [Place.inner, Enclosure.flag_pass, Bool.not_false, Bool.and_true] at hfirst
    · have hfalse : yes.declares = false := Bool.eq_false_iff.mpr hyes
      have hno : no.declares = true := by
        rwa [Statement.declares, hfalse, Bool.false_or] at hs
      have hfirst := no.hasFirst _ (hpl.within (.ifNo hpart)) rfl hno
      rwa [Place.inner, Enclosure.flag_pass, hfalse, Bool.not_false, Bool.and_true] at hfirst
  | .print _, _, _, _, hs => nomatch hs
  | .giveBack _, _, _, _, hs => nomatch hs
  | .whileLoop condition body, pl, hpl, hpart, hs => by
    have hfirst := body.hasFirst _ (hpl.within (.whileBody hpart)) rfl hs
    rwa [Place.inner, Enclosure.flag_pass, Bool.not_false, Bool.and_true] at hfirst
  | .block body, pl, hpl, hpart, hs => by
    refine Declaration.hasFirstAny body (Enclosure.flag pl.around) ?_ hs
    rintro ds d es rfl hds
    refine ⟨_, hpl.within (.block hpart), rfl, ?_⟩
    rw [Place.inner, Enclosure.flag_pass, hds, Bool.not_false, Bool.and_true]

theorem Declaration.hasFirst : ∀ (d : Declaration) (pl : Place), p.Contains pl → pl.part = d →
    d.declares = true → HasFirst p (Enclosure.flag pl.around)
  | .classType _, _, _, _, hd => nomatch hd
  | .function name params body, pl, hpl, hpart, _ => ⟨pl, hpl, ⟨name, params, body, hpart⟩, rfl⟩
  | .variable _, _, _, _, hd => nomatch hd
  | .statement s, pl, hpl, hpart, hd => s.hasFirst pl hpl hpart hd

theorem Declaration.hasFirstAny : ∀ (ds : List Declaration) (b : Bool),
    (∀ ds' d es, ds = ds' ++ d :: es → Declaration.declaresAny ds' = false →
      ∃ q, p.Contains q ∧ q.part = d ∧ Enclosure.flag q.around = b) →
    Declaration.declaresAny ds = true → HasFirst p b
  | [], _, _, hds => nomatch hds
  | d :: ds, b, hplace, hds => by
    by_cases hd : d.declares = true
    · obtain ⟨q, hq, hpart, rfl⟩ := hplace [] d ds rfl rfl
      exact d.hasFirst q hq hpart hd
    · have hfalse : d.declares = false := Bool.eq_false_iff.mpr hd
      rw [Declaration.declaresAny, hfalse, Bool.false_or] at hds
      refine Declaration.hasFirstAny ds b ?_ hds
      rintro ds' d' es rfl hds'
      refine hplace (d :: ds') d' es rfl ?_
      rw [Declaration.declaresAny, hfalse, hds', Bool.false_or]

end

end First

def Program.KeepsFlag (p : Program) : Prop :=
  ∀ pl g g', p.Contains pl → pl.part.IsFunction → execute pl.before .start = (none, g) →
    execute (pl.before ++ pl.steps) .start = (none, g') → g'.inReturn = g.inReturn

theorem Program.Contains.inReturn_function {p : Program} {pl : Place} (h : p.Contains pl) (hpart : pl.part.IsFunction)
    {g : Stage} (hrun : execute (pl.before ++ pl.steps) .start = (none, g)) : g.inReturn = false := by
  obtain ⟨name, params, body, hpart⟩ := hpart
  have hsteps : flagAfter pl.steps (Enclosure.flag pl.around) = false := by
    rw [Place.steps, hpart]
    exact (Declaration.flagAfter_steps pl.owner _ (.function name params body)).trans (Bool.and_false _)
  have hstart : Stage.start.inReturn = false := rfl
  rw [execute_inReturn hrun, hstart, flagAfter_append, h.flagAfter_before, hsteps]

theorem Program.Flat.keepsFlag {p : Program} (hflat : p.Flat) : p.KeepsFlag := by
  intro pl g g' hpl hpart hbefore hafter
  obtain ⟨name, params, body, heq⟩ := id hpart
  have hnone := (hpl.sheltered hflat).declaring (by rw [heq, Declaration.declares])
  have hmet : pl.Visits g := ⟨[], pl.ownSteps, rfl, by rw [List.append_nil]; exact hbefore⟩
  rw [hpl.inReturn_function hpart hafter, hpl.inReturn_eq hmet, Enclosure.flag_eq_false hnone]

theorem Program.KeepsFlag.flat {p : Program} {gEnd : Stage} (hrun : execute p.steps .start = (none, gEnd))
    (h : p.KeepsFlag) : p.Flat := by
  intro pl name ps body hpl hpart
  apply Bool.eq_false_iff.mpr
  intro hbody
  have hfirst : HasFirst p true := by
    refine Declaration.hasFirstAny body true ?_ hbody
    rintro ds d es rfl hds
    refine ⟨_, hpl.inBody ⟨hpart⟩, rfl, ?_⟩
    rw [Place.member, Enclosure.flag, hds]
    rfl
  obtain ⟨q, hq, hfunction, hflag⟩ := hfirst
  have hsteps := hrun
  rw [hq.steps_eq] at hsteps
  obtain ⟨g', hafter, -⟩ := execute_append_ok hsteps
  obtain ⟨g, hbefore, -⟩ := execute_append_ok hafter
  have hmet : q.Visits g := ⟨[], q.ownSteps, rfl, by rw [List.append_nil]; exact hbefore⟩
  have hkept := h q g g' hq hfunction hbefore hafter
  rw [hq.inReturn_function hfunction hafter, hq.inReturn_eq hmet, hflag] at hkept
  cases hkept

end Syntax

/-- Wherever the analysis of a program is, the flag is what the functions around the place make it: the
innermost function has no effect any more once another is declared in its body, and behind a function the
flag is down. Where no function is declared in the body of one with parameters, the flag says whether the
innermost function has parameters; and only there every function leaves the flag as it was. -/
theorem dependence_flag {text : String} {d : Derived} (h : parseText .program text = .ok d) :
    (∃ p : Program, p.tree = d.tree) ∧ ∀ p : Program, p.tree = d.tree →
      (AnalysisState.start.analyse d.tree).2.standing = (execute p.steps .start).2.toStanding ∧
      (∀ pl, p.Contains pl →
        p.steps = pl.before ++ pl.steps ++ pl.after ∧ (∃ rest, pl.steps = pl.ownSteps ++ rest) ∧
        (∀ g, pl.Visits g → g.inReturn = Enclosure.flag pl.around) ∧
        ∀ g, pl.part.IsFunction → execute (pl.before ++ pl.steps) .start = (none, g) → g.inReturn = false) ∧
      (p.Flat → ∀ pl g, p.Contains pl → pl.Visits g →
        (g.inReturn = true ↔ ∃ e outer, pl.around = e :: outer ∧ e.params.isSome = true)) ∧
      (p.Flat → p.KeepsFlag) ∧
      ∀ v s, AnalysisState.start.analyse d.tree = (.ok v, s) → p.KeepsFlag → p.Flat := by
  refine ⟨parseText_program h, ?_⟩
  intro p hp
  rw [← hp]
  refine ⟨analyse_standing .start p, ?_, ?_, Program.Flat.keepsFlag, ?_⟩
  · intro pl hpl
    exact ⟨hpl.steps_eq, pl.exists_steps_eq_ownSteps_append, fun _ hvisits => hpl.inReturn_eq hvisits,
      fun _ hpart hrun => hpl.inReturn_function hpart hrun⟩
  · intro hflat pl g hpl hvisits
    rw [hpl.inReturn_eq hvisits]
    exact (hpl.sheltered hflat).flag_around
  · intro v s haccepted hkeeps
    obtain ⟨g, hrun, -⟩ := execute_of_analyse haccepted
    exact hkeeps.flat hrun

def useOfX : Declaration :=
  .statement (.expression (.ofPrimary (.name (.named "x"))))

def useBehindFunction : Declaration :=
  .function (.named "f") (some ⟨.named "a", []⟩) [.function (.named "g") none [], useOfX]

theorem dependence_flag_lost : ∃ d pl g, parseText .program "fun f(a) { fun g() { } x; }" = .ok d ∧
    Program.tree ⟨[useBehindFunction]⟩ = d.tree ∧ Program.Contains ⟨[useBehindFunction]⟩ pl ∧ pl.part = useOfX ∧
      pl.Visits g ∧ (∃ e outer, pl.around = e :: outer ∧ e.params.isSome = true) ∧ g.inReturn = false ∧
      ¬Program.Flat ⟨[useBehindFunction]⟩ ∧ (AnalysisState.start.analyse d.tree).2.inReturn = false := by
  obtain ⟨d, hd, htree⟩ := exists_derived_tree "fun f(a) { fun g() { } x; }" ⟨[useBehindFunction]⟩ (by decide +kernel)
  obtain ⟨-, hplaces, hflat, -⟩ := (dependence_flag hd).2 ⟨[useBehindFunction]⟩ htree
  let top : Place := ⟨useBehindFunction, none, none, [], [], []⟩
  let pl : Place := top.member (.named "f") (some ⟨.named "a", []⟩) [.function (.named "g") none []]
    useOfX []
  have htop : Program.Contains ⟨[useBehindFunction]⟩ top := @Program.Contains.top _ [] [] _ rfl
  have hpl : Program.Contains ⟨[useBehindFunction]⟩ pl := htop.inBody (@Place.InBody.mk _ _ _ [_] [] _ rfl)
  have hvisits : pl.Visits (execute pl.before .start).2 := by
    refine ⟨[], pl.ownSteps, rfl, ?_⟩
    rw [List.append_nil]
    exact Prod.ext (by decide +kernel) rfl
  have hparams : ∃ e outer, pl.around = e :: outer ∧ e.params.isSome = true := ⟨_, _, rfl, rfl⟩
  have hdown : (execute pl.before .start).2.inReturn = false := (hplaces pl hpl).2.2.1 _ hvisits
  refine ⟨d, pl, _, hd, htree, hpl, rfl, hvisits, hparams, hdown, ?_, ?_⟩
  · intro hflat'
    have hup := (hflat hflat' pl _ hpl hvisits).mpr hparams
    rw [hdown] at hup
    cases hup
  · rw [← htree]
    decide +kernel

end CompiScript
