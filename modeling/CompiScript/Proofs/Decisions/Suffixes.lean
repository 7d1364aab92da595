import CompiScript.Proofs.Decisions.Lookahead

namespace CompiScript

open Phrase

namespace Choice

open Ahead

variable {C : List Phrase} {p : Position} {tokens : List Token}

theorem settleAssignment_inner {last : Ahead} (ended : Bool) (stack : List Ahead) (k : Kind) (h : stack ≠ []) :
    settleAssignment ended (stack ++ [last]) k = none := by
  match stack, h with
  | [a], _ => cases a <;> rfl
  | a :: b :: rest, _ => cases a <;> rfl

def Goes (front : List Phrase) (C : List Phrase) (tokens : List Token) (b : Bool) : Prop :=
  Yields (front ++ if b then member :: C else operators ++ C) (Token.kinds tokens)

theorem settleAssignment_suffix {last : Ahead} (hlast : last = target ∨ last = operand) (ended : Bool) {k : Kind}
    (hk : k = .dot ∨ k = .openParen ∨ k = .openBracket) : settleAssignment ended [last] k = none := by
  rcases hlast with rfl | rfl <;> rcases hk with rfl | rfl | rfl <;> rfl

theorem yields_suffix {X : List Phrase} {v : List Kind} :
    (Yields (token .identifier :: suffixes :: X) v → Yields (suffixes :: X) (.dot :: v)) ∧
    (Yields (optional [rule .arguments] :: token .closeParen :: suffixes :: X) v →
      Yields (suffixes :: X) (.openParen :: v)) ∧
    (Yields (rule .expression :: token .closeBracket :: suffixes :: X) v →
      Yields (suffixes :: X) (.openBracket :: v)) := by
  refine ⟨fun h => ?_, fun h => ?_, fun h => ?_⟩
  all_goals
    refine yields_many.mpr (.inr ?_)
    simp only [suffix, choose, yields_either, yields_row, List.cons_append, List.nil_append, yields_token_cons]
  · exact .inr (.inl ⟨trivial, h⟩)
  · exact .inl ⟨trivial, h⟩
  · exact .inr (.inr ⟨trivial, h⟩)

theorem follow_suffix {stack inner : List Ahead} {next : Ahead} {k : Kind} {w : List Kind}
    (hstep : step stack k = some (inner ++ [next])) (hsettle : ∀ ended, settleAssignment ended stack k = none)
    (hfits : fitsAll (canStart []) inner = true) (hclosed : Closed inner) (hend : canEnd C = false)
    (hk : Token.kinds tokens = k :: w) (hw : Yields (inner.map content ++ next.content :: C) w) (ended : Bool)
    (seen : String) :
    ∃ u rest, w = u ++ Token.kinds rest ∧ rest.length < tokens.length ∧ Yields (inner.map content) u ∧
      Yields (next.content :: C) (Token.kinds rest) ∧
      ∃ ended' seen', follow settleAssignment (.finish p) ended seen stack tokens =
        follow settleAssignment (.finish p) ended' seen' [next] rest := by
  obtain ⟨u, v, rfl, hu, hv⟩ := yields_append.mp hw
  have hv' : v ≠ [] := hv.ne_nil (canEnd_cons hend)
  obtain ⟨t, ts, rfl, rfl, hts⟩ := kinds_eq_cons hk (by simp [hv'])
  obtain ⟨used, rest, rfl, rfl, rfl⟩ := kinds_eq_append hts hv'
  have hshorter : rest.length < (t :: (used ++ rest)).length := by
    simp only [List.length_cons, List.length_append]
    omega
  refine ⟨_, rest, rfl, hshorter, hu, hv, ?_⟩
  rw [follow_step (hsettle _) hstep]
  exact follow_inner _ inner settleAssignment_inner hfits hclosed hu _ _

theorem follow_suffixes (hfollow : ∀ k, canStart C k = true → Rule.assignment.follow k = true)
    (hend : canEnd C = false) {last : Ahead} (hlast : last = target ∨ last = operand)
    (h : Yields (operand.content :: C) (Token.kinds tokens)) (ended : Bool) (seen : String) :
    ∃ b, follow settleAssignment (.finish p) ended seen [last] tokens = .ok b ∧ Goes [suffixes] C tokens b := by
  induction hlength : tokens.length using Nat.strongRecOn generalizing tokens last ended seen with
  | ind n ih =>
    obtain ⟨k, w, hk⟩ := List.exists_cons_of_ne_nil (kinds_ne_nil tokens)
    rw [hk] at h
    rcases yields_operand_cons.mp h with ⟨rfl, hw⟩ | ⟨rfl, hw⟩ | ⟨rfl, hw⟩ | hw
    · have hstep : step [last] .dot = some ([phrase (.token .identifier)] ++ [target]) := by
        rcases hlast with rfl | rfl <;> rfl
      obtain ⟨u, rest, rfl, hlt, hu, hrest, ended', seen', hfollow'⟩ := follow_suffix hstep
        (fun _ => settleAssignment_suffix hlast _ (.inl rfl)) rfl
        (fun a ha => ⟨_, (Option.some.inj ha).symm, rfl⟩) hend hk hw ended seen
      rw [hfollow']
      obtain ⟨l, v, hl⟩ := List.exists_cons_of_ne_nil (kinds_ne_nil rest)
      rw [hl] at hrest
      rcases yields_target_cons.mp hrest with ⟨rfl, hv⟩ | hv
      · -- The member is what is assigned to.
        refine ⟨true, follow_settled hl rfl, ?_⟩
        have hmember : Yields ([token .identifier] ++ (token .equal :: rule .assignment :: C))
            (u ++ Token.kinds rest) :=
          yields_append.mpr ⟨u, _, rfl, hu, hl ▸ yields_token_cons.mpr ⟨rfl, hv⟩⟩
        rw [Goes, hk]
        exact yields_many.mpr (.inl (yields_row.mpr (yields_token_cons.mpr ⟨rfl, hmember⟩)))
      · rw [← hl] at hv
        obtain ⟨b, hb, hgoes⟩ := ih _ (hlength ▸ hlt) (.inl rfl) hv ended' seen' rfl
        refine ⟨b, hb, ?_⟩
        rw [Goes, hk]
        exact yields_suffix.1 (yields_append.mpr ⟨u, _, rfl, hu, hgoes⟩)
    · have hstep : step [last] .openParen =
          some ([phrase (.optional [.rule .arguments]), phrase (.token .closeParen)] ++ [operand]) := by
        rcases hlast with rfl | rfl <;> rfl
      obtain ⟨u, rest, rfl, hlt, hu, hrest, ended', seen', hfollow'⟩ := follow_suffix hstep
        (fun _ => settleAssignment_suffix hlast _ (.inr (.inl rfl))) (by decide +kernel)
        (fun a ha => ⟨_, (Option.some.inj ha).symm, rfl⟩) hend hk hw ended seen
      obtain ⟨b, hb, hgoes⟩ := ih _ (hlength ▸ hlt) (.inr rfl) hrest ended' seen' rfl
      refine ⟨b, hfollow'.trans hb, ?_⟩
      rw [Goes, hk]
      exact yields_suffix.2.1 (yields_append.mpr ⟨u, _, rfl, hu, hgoes⟩)
    · have hstep : step [last] .openBracket =
          some ([phrase (.rule .expression), phrase (.token .closeBracket)] ++ [operand]) := by
        rcases hlast with rfl | rfl <;> rfl
      obtain ⟨u, rest, rfl, hlt, hu, hrest, ended', seen', hfollow'⟩ := follow_suffix hstep
        (fun _ => settleAssignment_suffix hlast _ (.inr (.inr rfl))) (by decide +kernel)
        (fun a ha => ⟨_, (Option.some.inj ha).symm, rfl⟩) hend hk hw ended seen
      obtain ⟨b, hb, hgoes⟩ := ih _ (hlength ▸ hlt) (.inr rfl) hrest ended' seen' rfl
      refine ⟨b, hfollow'.trans hb, ?_⟩
      rw [Goes, hk]
      exact yields_suffix.2.2 (yields_append.mpr ⟨u, _, rfl, hu, hgoes⟩)
    · have hstart := hw.canStart_all
      rw [canStart_append] at hstart
      obtain ⟨hdot, hparen, hbracket, hequal⟩ := trailing_ne k (frontAll_mono hfollow k hstart)
      refine ⟨false, follow_settled hk ?_, ?_⟩
      · rcases hlast with rfl | rfl
        · simp [settleAssignment, hdot, hparen, hbracket]
        · simp [settleAssignment, hdot, hparen, hbracket]
      · rw [Goes, hk]
        exact yields_many.mpr (.inl hw)

def AssignmentGoes (C : List Phrase) (tokens : List Token) (b : Bool) : Prop :=
  Yields (if b then assigned :: C else rule .logicOr :: C) (Token.kinds tokens)

theorem assignmentGoes_of_operand {b : Bool} {u : List Kind} {rest : List Token} (hu : Gives (rule .primary) u)
    (htokens : Token.kinds tokens = u ++ Token.kinds rest) (h : Goes [suffixes] C rest b) :
    AssignmentGoes C tokens b := by
  rw [AssignmentGoes, htokens]
  cases b with
  | false => exact yields_logicOr.mpr (.inr (yields_call.mpr (.inl (hu.yields h))))
  | true => exact yields_assigned.mpr (.inr (yields_call.mpr (.inl (hu.yields h))))

theorem assignmentGoes_of_function {b : Bool} {u : List Kind} {rest : List Token} (hu : Gives (rule .funAnon) u)
    (htokens : Token.kinds tokens = u ++ Token.kinds rest) (h : Goes [] C rest b) :
    AssignmentGoes C tokens b := by
  rw [AssignmentGoes, htokens]
  cases b with
  | false => exact yields_logicOr.mpr (.inr (yields_call.mpr (.inr (hu.yields h))))
  | true => exact yields_assigned.mpr (.inr (yields_call.mpr (.inr (hu.yields h))))

theorem readRule_tracks_gives {r : Rule} {k : Kind} {u : List Kind} (h : Gives (rule r) (k :: u)) :
    ∃ left, readRule Rule.depth r k = some left ∧ Yields (left.map content) u := by
  have hlevel : r.level < Rule.depth := of_decide_eq_true (rule r).shallow_depth
  obtain ⟨left, hread, hleft⟩ := readRule_tracks _ r [] k u hlevel nofun .nil (yields_single.mpr h)
  rw [List.append_nil] at hleft
  exact ⟨left, hread, hleft⟩

theorem gives_primary_identifier {u : List Kind} (h : Gives (rule .primary) (.identifier :: u)) : u = [] := by
  obtain ⟨left, hread, hleft⟩ := readRule_tracks_gives h
  cases hread
  exact hleft

theorem step_rule (r : Rule) (k : Kind) : step [phrase (.rule r)] k = readRule Rule.depth r k := by
  cases hread : readRule Rule.depth r k <;> simp [step, Ahead.read, readPhrase, hread, skippable, nullable]

theorem follow_first (r : Rule) (next : Ahead) {k : Kind} {w : List Kind} (hr : r.firm = true)
    (hfirst : ∀ left, readRule Rule.depth r k = some left →
      readRule Rule.depth .assignment k = some (left ++ [next]))
    (hend : canEnd C = false) (hk : Token.kinds tokens = k :: w)
    (h : Yields (rule r :: next.content :: C) (k :: w)) :
    ∃ u rest, Token.kinds tokens = u ++ Token.kinds rest ∧ Gives (rule r) u ∧
      Yields (next.content :: C) (Token.kinds rest) ∧
      ∃ ended seen, follow settleAssignment (.finish p) false "" [phrase (.rule .assignment)] tokens =
        follow settleAssignment (.finish p) ended seen [next] rest := by
  obtain ⟨u, v, huv, hu, hv⟩ := h
  cases u with
  | nil => cases gives_nil_iff.mp hu
  | cons l u =>
    cases huv
    obtain ⟨left, hread, hleft⟩ := readRule_tracks_gives hu
    have hstep : step [phrase (.rule .assignment)] k = some (left ++ [next]) := by
      rw [step_rule]
      exact hfirst left hread
    have hfits : fitsAll (canStart []) left = true := fitsAll_mono (F := canStart []) nofun (readRule_fits hread)
    obtain ⟨u', rest, hw, -, hu', hrest, hfollow⟩ := follow_suffix hstep (fun _ => rfl) hfits
      (readRule_closed hr hread) hend hk (yields_append.mpr ⟨u, v, rfl, hleft, hv⟩) false ""
    refine ⟨k :: u', rest, by rw [hk, hw]; rfl, ?_, hrest, hfollow⟩
    have hcomplete := readRule_completes hread [] u' (by rwa [List.append_nil])
    exact yields_single.mp hcomplete

end Choice

end CompiScript
