import MixedInteger.Expression.Arithmetic
import MixedInteger.Proofs.Reachable

/-!
Passes in any order and number. A pass leaves nothing for itself, and what it cleared stays clear once nothing
is left for the passes that feed it. So passes converge as soon as each of them has run after its feeders.
-/

namespace MixedInteger

namespace Pass

theorem Feeds.trans {a b c : Pass} (h : a.Feeds b) (h' : b.Feeds c) : a.Feeds c := by
  cases h with
  | disjunctionsRelations =>
    cases h'
    exact .disjunctionsSos1s
  | disjunctionsSos1s | relationsSos1s => cases h'

theorem Feeds.irrefl {a : Pass} : ¬a.Feeds a := by
  intro h
  cases h

/-- Each pass comes after those that feed it, wherever they are not done already. -/
def Scheduled (done : List Pass) : List Pass → Prop
  | [] => True
  | pass :: rest => (∀ feeder, feeder.Feeds pass → feeder ∈ done) ∧ Scheduled (pass :: done) rest

end Pass

namespace Problem

variable {α : Type}

/-- No constraint is left for a pass. -/
def Clear (p : Problem α) (pass : Pass) : Prop :=
  ∀ c ∈ p.constraints, c.takenBy ≠ some pass

/-- No constraint is left for a pass, and none for a pass that feeds it. -/
structure Settled (p : Problem α) (pass : Pass) : Prop where
  clear : p.Clear pass
  unfed : ∀ feeder, feeder.Feeds pass → p.Clear feeder

theorem clear_iff {p : Problem α} {pass : Pass} : p.Clear pass ↔
    match pass with
    | .disjunctions => p.disjunctions = []
    | .relations => ∀ c ∈ p.comparisons, c.relation.isCanonical = true
    | .binaryOrs => p.binaryOrs = []
    | .sos1s => p.sos1s = [] := by
  have kinds : p.Clear pass ↔
      (∀ c ∈ p.comparisons, (Constraint.comparison c).takenBy ≠ some pass) ∧
        (∀ s ∈ p.sos1s, (Constraint.sos1 s).takenBy ≠ some pass) ∧
        (∀ d ∈ p.disjunctions, (Constraint.disjunction d).takenBy ≠ some pass) ∧
        ∀ b ∈ p.binaryOrs, (Constraint.binaryOr b).takenBy ≠ some pass := by
    constructor
    · intro h
      exact ⟨fun c hc => h _ (mem_constraints.mpr hc), fun s hs => h _ (mem_constraints.mpr hs),
        fun d hd => h _ (mem_constraints.mpr hd), fun b hb => h _ (mem_constraints.mpr hb)⟩
    · rintro ⟨comparisons, sos1s, disjunctions, binaryOrs⟩ c hc
      rw [mem_constraints] at hc
      cases c with
      | comparison c => exact comparisons c hc
      | sos1 s => exact sos1s s hc
      | disjunction d => exact disjunctions d hc
      | binaryOr b => exact binaryOrs b hc
  rw [kinds]
  cases pass <;> simp [Constraint.takenBy, List.eq_nil_iff_forall_not_mem]

end Problem

/-- What a pass leaves for some pass was there before, or it was made out of what fed it. -/
theorem Passed.left_after {α : Type} [Scalar α] {p q : Problem α} {pass later : Pass}
    {kept : List (Constraint α)} {ws : List (Rewriting p.policy.bigM)} (h : Passed p pass kept ws q)
    {c : Constraint α} (hc : c ∈ q.constraints) (taken : c.takenBy = some later) :
    c ∈ kept ∨ pass.Feeds later ∧ ¬p.Clear pass := by
  rcases h.mem_after hc with hk | ⟨w, hw, hr⟩
  · exact .inl hk
  · obtain ⟨source, hs, feeds⟩ := w.lowers.left_to c hr later taken
    rw [h.taken w hw] at hs
    cases Option.some.inj hs
    exact .inr ⟨feeds, fun clear => clear _ (h.source_mem hw) (h.taken w hw)⟩

namespace Problem

variable {α : Type} [Scalar α] {p : Problem α}

theorem substitute_clear (p : Problem α) (pass : Pass) : (p.substitute pass).1.Clear pass := by
  obtain ⟨kept, ws, passed⟩ := p.substitute_passed pass
  intro c hc taken
  rcases passed.left_after hc taken with hk | ⟨feeds, -⟩
  · exact passed.left c hk taken
  · exact feeds.irrefl

/-- What is clear for one pass stays clear under another that does not feed it, or that has nothing to do. -/
theorem Clear.substitute {target : Pass} (h : p.Clear target) (pass : Pass)
    (starved : pass.Feeds target → p.Clear pass) : (p.substitute pass).1.Clear target := by
  obtain ⟨kept, ws, passed⟩ := p.substitute_passed pass
  intro c hc taken
  rcases passed.left_after hc taken with hk | ⟨feeds, busy⟩
  · exact h c (passed.kept_mem hk) taken
  · exact busy (starved feeds)

namespace Settled

/-- A pass settles once its feeders have. -/
theorem of_pass {pass : Pass} (fed : ∀ feeder, feeder.Feeds pass → p.Settled feeder) :
    (p.substitute pass).1.Settled pass := by
  refine ⟨p.substitute_clear pass, ?_⟩
  intro feeder hf
  apply (fed feeder hf).clear.substitute pass
  intro feeds
  exact absurd (feeds.trans hf) Pass.Feeds.irrefl

/-- No later pass unsettles it. -/
theorem substitute {target : Pass} (h : p.Settled target) (pass : Pass) :
    (p.substitute pass).1.Settled target := by
  refine ⟨h.clear.substitute pass fun feeds => h.unfed pass feeds, ?_⟩
  intro feeder hf
  exact (h.unfed feeder hf).substitute pass fun feeds => h.unfed pass (feeds.trans hf)

end Settled

/-- Passes that contain a schedule settle all of it, whatever else runs before, between and after. -/
theorem after_settled {order passes : List Pass} (contained : order.Sublist passes) {done : List Pass}
    (scheduled : Pass.Scheduled done order) (settled : ∀ pass ∈ done, p.Settled pass) :
    ∀ pass ∈ done ++ order, (p.after passes).Settled pass := by
  induction contained generalizing p done with
  | slnil =>
    rw [List.append_nil]
    exact settled
  | cons pass _ ih => exact ih scheduled fun target ht => (settled target ht).substitute pass
  | cons_cons pass _ ih =>
    obtain ⟨fed, rest⟩ := scheduled
    have now : ∀ target ∈ pass :: done, (p.substitute pass).1.Settled target := by
      intro target ht
      rcases List.mem_cons.mp ht with rfl | ht
      · exact .of_pass fun feeder hf => settled feeder (fed feeder hf)
      · exact (settled target ht).substitute pass
    intro target ht
    apply ih rest now
    simp only [List.mem_append, List.mem_cons] at ht ⊢
    tauto

/-- Disjunctions go first and relations second, since sets are made of both. -/
theorem scheduled : Pass.Scheduled [] [.disjunctions, .relations, .sos1s] := by
  refine ⟨fun feeder feeds => ?_, fun feeder feeds => ?_, fun feeder feeds => ?_, trivial⟩ <;>
    cases feeds <;> simp

theorem after_clear_relations (p : Problem α) {passes : List Pass}
    (ordered : [.disjunctions, .relations].Sublist passes) :
    (p.after passes).Clear .disjunctions ∧ (p.after passes).Clear .relations := by
  have settled := p.after_settled ordered ⟨scheduled.1, scheduled.2.1, trivial⟩ (by simp)
  exact ⟨(settled _ (by simp)).clear, (settled _ (by simp)).clear⟩

theorem after_clear_sos1s (p : Problem α) {passes : List Pass}
    (ordered : [.disjunctions, .relations, .sos1s].Sublist passes) : (p.after passes).Clear .sos1s :=
  (p.after_settled ordered scheduled (by simp) _ (by simp)).clear

/-- Nothing feeds the pass that takes out links. -/
theorem after_clear_binaryOrs (p : Problem α) {passes : List Pass} (runs : .binaryOrs ∈ passes) :
    (p.after passes).Clear .binaryOrs := by
  have scheduled : Pass.Scheduled [] [.binaryOrs] := ⟨fun _ feeds => (nomatch feeds), trivial⟩
  exact (p.after_settled (List.singleton_sublist.mpr runs) scheduled (by simp) _ (by simp)).clear

/-- What lowering leaves is left to an engine by the policy. -/
theorem lower_isLowered (p : Problem α) : p.lower.1.isLowered = true := by
  have ordered : [.disjunctions, .relations].Sublist p.policy.passes := by
    simp only [LoweringPolicy.passes, List.append_assoc]
    exact List.sublist_append_left _ _
  have policy := (p.after_frame p.policy.passes).2.2
  obtain ⟨disjunctions, relations⟩ := p.after_clear_relations ordered
  rw [lower_after]
  simp only [isLowered, expandObjective, Bool.and_eq_true, Bool.or_eq_true, List.isEmpty_iff,
    List.all_eq_true, policy]
  refine ⟨⟨⟨⟨clear_iff.mp disjunctions, clear_iff.mp relations⟩, ?_⟩, ?_⟩, ?_⟩
  · by_cases keeps : p.policy.keepsSos1
    · exact .inl keeps
    · refine .inr (clear_iff.mp (p.after_clear_sos1s ?_))
      have kept : [.disjunctions, .relations].Sublist
          ([.disjunctions, .relations] ++ if p.policy.keepsBinaryOr then [] else [Pass.binaryOrs]) :=
        List.sublist_append_left _ _
      simp only [LoweringPolicy.passes, keeps, Bool.false_eq_true, ↓reduceIte]
      exact kept.append (List.Sublist.refl [Pass.sos1s])
  · by_cases keeps : p.policy.keepsBinaryOr
    · exact .inl keeps
    · refine .inr (clear_iff.mp (p.after_clear_binaryOrs ?_))
      simp [LoweringPolicy.passes, keeps]
  · cases (p.after p.policy.passes).objective <;> simp [Expression.expand, Expression.isFlat]

/-- Passes that contain each pass after its feeders leave rows in canonical relations only, of either degree.
Lowering runs such passes, as far as the policy goes. -/
theorem after_canonical (p : Problem α) :
    (∀ passes : List Pass, [.disjunctions, .relations, .sos1s].Sublist passes → .binaryOrs ∈ passes →
      (p.after passes).disjunctions = [] ∧ (p.after passes).sos1s = [] ∧
        (p.after passes).binaryOrs = [] ∧
        ∀ c ∈ (p.after passes).comparisons, c.relation.isCanonical = true) ∧
    p.lower.1.isLowered = true := by
  refine ⟨fun passes ordered links => ?_, p.lower_isLowered⟩
  have front : [.disjunctions, .relations].Sublist [Pass.disjunctions, .relations, .sos1s] := by decide
  obtain ⟨disjunctions, relations⟩ := p.after_clear_relations (front.trans ordered)
  exact ⟨clear_iff.mp disjunctions, clear_iff.mp (p.after_clear_sos1s ordered),
    clear_iff.mp (p.after_clear_binaryOrs links), clear_iff.mp relations⟩

/-- A disequality as a disjunct, and a strict quadratic comparison. -/
def mixed : Problem Rat :=
  (Problem.empty.push
      (.disjunction ⟨[.ofLinear [.single 1 (.real "x")] .ne 0 (1 / 4)], 1 / 4⟩)).push
    (.comparison (.quadratic (.ofTerm (.product 1 (.real "x") (.real "x"))) .lt 4))

theorem mixed_canonical :
    let passes : List Pass :=
      [.sos1s, .binaryOrs, .disjunctions, .sos1s, .relations, .disjunctions, .sos1s, .relations]
    mixed.isLowered = false ∧ (mixed.after passes).disjunctions = [] ∧
      (mixed.after passes).sos1s = [] ∧ (mixed.after passes).binaryOrs = [] ∧
      ∀ c ∈ (mixed.after passes).comparisons, c.relation.isCanonical = true :=
  ⟨rfl, mixed.after_canonical.1 _ (by decide) (by decide)⟩

end Problem
end MixedInteger
