import MixedInteger.Proofs.FixedPoint
import MixedInteger.Proofs.Runs

/-!
What a set flag means. A pass that ran has left nothing of its own, but a pass that makes constraints for it may run
later and leave the flag as it is. So flags speak of what is left as long as no such pass has come after.
-/

namespace MixedInteger

variable {α : Type}

namespace PassFlags

def isSet (flags : PassFlags) : Pass → Bool
  | .disjunctions => flags.disjunctions
  | .relations => flags.relations
  | .binaryOrs => flags.binaryOrs
  | .sos1s => flags.sos1s

theorem isSet_none (pass : Pass) : none.isSet pass = false := by
  cases pass <;> rfl

theorem isSet_mark (flags : PassFlags) (pass : Pass) {target : Pass} (other : pass ≠ target) :
    (flags.mark pass).isSet target = flags.isSet target := by
  cases pass <;> cases target <;> first | rfl | exact absurd rfl other

end PassFlags

/-- Passes, each with the problem that it found. -/
abbrev Moments (α : Type) := List (Problem α × Pass)

/-- Lowering makes something of a constraint that another pass has to take out: strict rows and sets of a disjunction,
and a set of a disequality. -/
def Constraint.LeavesFor : Constraint α → Pass → Prop
  | disjunction _, .relations | disjunction _, .sos1s => True
  | comparison c, .sos1s => c.relation = .ne
  | _, _ => False

namespace Problem

/-- A pass finds something of which it makes constraints for another pass. -/
def Feeding (p : Problem α) : Pass → Pass → Prop
  | .disjunctions, .relations | .disjunctions, .sos1s => p.disjunctions ≠ []
  | .relations, .sos1s => ∃ c ∈ p.comparisons, c.relation = .ne
  | _, _ => False

theorem feeding_iff {p : Problem α} {pass target : Pass} :
    p.Feeding pass target ↔ ∃ c ∈ p.constraints, c.takenBy = some pass ∧ c.LeavesFor target := by
  have disjunction (found : p.disjunctions ≠ []) :
      ∃ c ∈ p.constraints, c.takenBy = some .disjunctions ∧ c.LeavesFor .relations ∧ c.LeavesFor .sos1s := by
    obtain ⟨d, hd⟩ := List.exists_mem_of_ne_nil _ found
    exact ⟨.disjunction d, mem_constraints.mpr hd, rfl, trivial, trivial⟩
  have taken_ne {c : Comparison α} (excluding : c.relation = .ne) :
      (Constraint.comparison c).takenBy = some .relations := by
    simp only [Constraint.takenBy, excluding, Relation.isCanonical, Bool.false_eq_true, ↓reduceIte]
  constructor
  · intro feeding
    cases pass with
    | disjunctions =>
      cases target with
      | relations =>
        obtain ⟨c, hc, taken, leaves, -⟩ := disjunction feeding
        exact ⟨c, hc, taken, leaves⟩
      | sos1s =>
        obtain ⟨c, hc, taken, -, leaves⟩ := disjunction feeding
        exact ⟨c, hc, taken, leaves⟩
      | disjunctions | binaryOrs => exact feeding.elim
    | relations =>
      cases target with
      | sos1s =>
        obtain ⟨c, hc, excluding⟩ := feeding
        exact ⟨.comparison c, mem_constraints.mpr hc, taken_ne excluding, excluding⟩
      | disjunctions | relations | binaryOrs => exact feeding.elim
    | binaryOrs | sos1s => cases target <;> exact feeding.elim
  · rintro ⟨c, hc, taken, leaves⟩
    rw [mem_constraints] at hc
    cases c with
    | disjunction d =>
      cases taken
      cases target with
      | relations | sos1s => exact List.ne_nil_of_mem hc
      | disjunctions | binaryOrs => exact leaves.elim
    | comparison c =>
      cases target with
      | sos1s =>
        have excluding : c.relation = .ne := leaves
        cases (taken_ne excluding).symm.trans taken
        exact ⟨c, hc, excluding⟩
      | disjunctions | relations | binaryOrs => exact leaves.elim
    | sos1 s | binaryOr b => cases target <;> exact leaves.elim

end Problem

namespace Moments

/-- After the last run of a pass, another one has made constraints for it. -/
def Refilled (ms : Moments α) (target : Pass) : Prop :=
  ∃ earlier found pass later, ms = earlier ++ (found, pass) :: later ∧ Problem.Feeding found pass target ∧
    ∀ m ∈ later, m.2 ≠ target

theorem refilled_concat {ms : Moments α} {found : Problem α} {pass target : Pass} :
    Refilled (ms ++ [(found, pass)]) target ↔ found.Feeding pass target ∨ pass ≠ target ∧ ms.Refilled target := by
  constructor
  · rintro ⟨earlier, before, feeder, later, split, feeding, others⟩
    rcases List.eq_nil_or_concat later with rfl | ⟨rest, last, rfl⟩
    · obtain ⟨-, same⟩ := List.append_inj' split rfl
      cases same
      exact .inl feeding
    · rw [List.concat_eq_append, ← List.cons_append, ← List.append_assoc] at split
      obtain ⟨same, lasts⟩ := List.append_inj' split rfl
      cases lasts
      rw [List.concat_eq_append, List.forall_mem_append] at others
      exact .inr ⟨others.2 _ List.mem_cons_self, earlier, before, feeder, rest, same, feeding, others.1⟩
  · rintro (feeding | ⟨other, earlier, before, feeder, later, rfl, feeding, others⟩)
    · exact ⟨ms, found, pass, [], rfl, feeding, List.forall_mem_nil _⟩
    · refine ⟨earlier, before, feeder, later ++ [(found, pass)], ?_, feeding, ?_⟩
      · rw [List.append_assoc, List.cons_append]
      · intro m hm
        rcases List.mem_append.mp hm with hm | hm
        · exact others m hm
        · rw [List.mem_singleton.mp hm]
          exact other

end Moments

/-- A set flag is right, or the pass has been refilled. -/
def Problem.FlagHolds (p : Problem α) (ms : Moments α) (target : Pass) : Prop :=
  p.flags.isSet target = true → p.Clear target ∨ ms.Refilled target

/-- Without a pass nothing gets in while the flag stays set. -/
theorem Problem.FlagHolds.rest {p q : Problem α} {ms : Moments α} {target : Pass} (h : p.FlagHolds ms target)
    (quiet : q.flags = .none ∨ q.flags = p.flags ∧ ∀ c ∈ q.constraints, c ∈ p.constraints) :
    q.FlagHolds ms target := by
  rcases quiet with reset | ⟨flags, fewer⟩
  · intro set
    rw [reset, PassFlags.isSet_none] at set
    cases set
  · intro set
    rw [flags] at set
    exact (h set).imp_left fun clear c hc => clear c (fewer c hc)

variable [Scalar α]

namespace Disjunction.Choice

/-- Either side of an alternative is strict, or a slack has to be. -/
theorem rows_left (k : Choice α) (d : Disjunction α) (bigM : α) :
    (∃ r ∈ k.rows d bigM, r.takenBy = some .relations) ∧ ∃ r ∈ k.rows d bigM, r.takenBy = some .sos1s := by
  by_cases equality : k.alternative.relation = .eq
  · rw [(of_equality equality d bigM).2]
    simp [equalityRows, Disjunction.row, exclusive, Constraint.takenBy, Comparison.ofLinear, Relation.isCanonical]
  · rw [(of_inequality equality d bigM).2]
    cases hr : k.alternative.relation <;>
      simp_all [inequalityRows, Disjunction.row, exclusive, Constraint.takenBy, Comparison.ofLinear,
        Relation.isCanonical, Relation.complement]

end Disjunction.Choice

/-- The passes that the rows of a constraint are left to. -/
theorem Lowering.left_iff {bigM : α} {c : Constraint α} {vs : List (Variable α)} {rows : List (Constraint α)}
    (h : Lowering bigM c vs rows) (valid : c.validate = .ok ()) {target : Pass} :
    (∃ r ∈ rows, r.takenBy = some target) ↔ c.LeavesFor target := by
  have settled {made : List (Comparison α)} (canonical : ∀ r ∈ made, r.relation.isCanonical = true) :
      ¬∃ r ∈ made.map Constraint.comparison, r.takenBy = some target := by
    rintro ⟨_, hr, left⟩
    obtain ⟨row, hrow, rfl⟩ := List.mem_map.mp hr
    simp [Constraint.takenBy, canonical row hrow] at left
  cases h with
  | below strict | above strict =>
    cases target <;> simp [Constraint.takenBy, Constraint.LeavesFor, Relation.isCanonical, strict]
  | apart excluding above below =>
    cases target <;>
      simp [Comparison.separation, Comparison.derived, Constraint.takenBy, Constraint.LeavesFor,
        Relation.isCanonical, excluding]
  | sos1 s names positions => exact iff_of_false (settled s.rows_canonical) (by cases target <;> exact id)
  | binaryOr b => exact iff_of_false (settled b.lower_canonical) (by cases target <;> exact id)
  | disjunction d ks choices =>
    constructor
    · rintro ⟨r, hr, left⟩
      obtain ⟨pass, taken, feeds⟩ := (Lowering.disjunction d ks choices).left_to r hr target left
      cases Option.some.inj taken
      cases feeds <;> trivial
    · intro leaves
      obtain ⟨k, hk⟩ : ∃ k, k ∈ ks := by
        refine List.exists_mem_of_ne_nil ks ?_
        rintro rfl
        exact Disjunction.alternatives_map_ne_nil (Disjunction.validate_ok.mp valid).1 choices.symm
      obtain ⟨⟨r, hr, relations⟩, s, hs, sets⟩ := k.rows_left d bigM
      have made {row : Constraint α} (hrow : row ∈ k.rows d bigM) :
          row ∈ ks.flatMap (·.rows d bigM) ++ [d.closing ks] :=
        List.mem_append_left _ (List.mem_flatMap.mpr ⟨k, hk, hrow⟩)
      cases target with
      | relations => exact ⟨r, made hr, relations⟩
      | sos1s => exact ⟨s, made hs, sets⟩
      | disjunctions | binaryOrs => exact leaves.elim

namespace Problem

variable {p : Problem α}

/-- Another pass keeps a pass without work, unless it makes work for it. -/
theorem Grounded.clear_substitute_iff (h : p.Grounded) {pass target : Pass} (other : pass ≠ target) :
    (p.substitute pass).1.Clear target ↔ p.Clear target ∧ ¬p.Feeding pass target := by
  obtain ⟨kept, ws, passed⟩ := p.substitute_passed pass
  constructor
  · intro clear
    constructor
    · intro c hc taken
      rcases List.mem_append.mp (passed.before.mem_iff.mp hc) with hk | hs
      · exact clear c (passed.after.mem_iff.mpr (List.mem_append_left _ hk)) taken
      · obtain ⟨w, hw, rfl⟩ := List.mem_map.mp hs
        exact other (Option.some.inj ((passed.taken w hw).symm.trans taken))
    · intro feeding
      obtain ⟨c, hc, taken, leaves⟩ := feeding_iff.mp feeding
      rcases List.mem_append.mp (passed.before.mem_iff.mp hc) with hk | hs
      · exact passed.left c hk taken
      · obtain ⟨w, hw, rfl⟩ := List.mem_map.mp hs
        obtain ⟨r, hr, left⟩ := (w.lowers.left_iff (h.valid _ hc)).mpr leaves
        exact clear r (passed.row_mem hw hr) left
  · rintro ⟨clear, starved⟩ c hc left
    rcases passed.mem_after hc with hk | ⟨w, hw, hr⟩
    · exact clear c (passed.kept_mem hk) left
    · have source := passed.source_mem hw
      have leaves := (w.lowers.left_iff (h.valid _ source)).mp ⟨c, hr, left⟩
      exact starved (feeding_iff.mpr ⟨w.source, source, passed.taken w hw, leaves⟩)

/-- The passes with the problems they find, one after the other. -/
def moments (p : Problem α) : List Pass → Moments α
  | [] => []
  | pass :: passes => (p, pass) :: (p.substitute pass).1.moments passes

namespace FlagHolds

variable {ms : Moments α} {target : Pass}

theorem substitute (h : p.FlagHolds ms target) (grounded : p.Grounded) (pass : Pass) :
    (p.substitute pass).1.FlagHolds (ms ++ [(p, pass)]) target := by
  rw [FlagHolds, substitute_flags, Moments.refilled_concat]
  intro set
  by_cases own : pass = target
  · exact .inl (own ▸ p.substitute_clear pass)
  · rw [p.flags.isSet_mark pass own] at set
    rcases h set with clear | refilled
    · by_cases feeding : p.Feeding pass target
      · exact .inr (.inl feeding)
      · exact .inl ((grounded.clear_substitute_iff own).mpr ⟨clear, feeding⟩)
    · exact .inr (.inr ⟨own, refilled⟩)

theorem after (h : p.FlagHolds ms target) (grounded : p.Grounded) (passes : List Pass) :
    (p.after passes).FlagHolds (ms ++ p.moments passes) target := by
  induction passes generalizing p ms with
  | nil =>
    rw [moments, List.append_nil]
    exact h
  | cons pass passes ih =>
    rw [moments, List.append_cons]
    exact ih (h.substitute grounded pass) (grounded.after [pass]).1

end FlagHolds

end Problem

theorem Change.outcome_quiet (c : Change α) (p : Problem α) : (c.outcome p).flags = .none ∨
    (c.outcome p).flags = p.flags ∧ ∀ k ∈ (c.outcome p).constraints, k ∈ p.constraints := by
  rcases c.intake_or_rebound p with ⟨i, rfl⟩ | ⟨-, registry, left⟩
  · rw [Change.outcome_intake]
    split
    · cases i with
      | objective e sense => exact .inr ⟨rfl, fun _ hk => hk⟩
      | constraints cs =>
        let bare : Problem α := { p with registry := p.registry.insertAll (cs.flatMap Constraint.occurrences) }
        exact .inl (congrArg Problem.flags (Problem.foldl_push_flags bare cs .none)).symm
    · exact .inr ⟨rfl, fun _ hk => hk⟩
  · rw [left]
    exact .inr ⟨rfl, fun _ hk => hk⟩

namespace Operation

/-- The passes that an operation runs. -/
def passes (a : Operation α) (p : Problem α) : List Pass :=
  match a with
  | substitute pass => [pass]
  | lower | build _ => p.policy.passes
  | _ => []

/-- The passes of a run, with the problems they find. -/
def moments (p : Problem α) : List (Operation α) → Moments α
  | [] => []
  | a :: as => p.moments (a.passes p) ++ moments (a.perform p) as

theorem perform_flagHolds (a : Operation α) {p : Problem α} (grounded : p.Grounded) {ms : Moments α} {target : Pass}
    (h : p.FlagHolds ms target) : (a.perform p).FlagHolds (ms ++ p.moments (a.passes p)) target := by
  have expanded {q : Problem α} {ms : Moments α} (h : q.FlagHolds ms target) : q.expandObjective.FlagHolds ms target :=
    h.rest (.inr ⟨rfl, fun _ hc => hc⟩)
  have lowered : p.lower.1.FlagHolds (ms ++ p.moments p.policy.passes) target := by
    rw [p.lower_after]
    exact expanded (h.after grounded p.policy.passes)
  have quiet {q : Problem α} (quiet : q.flags = .none ∨ q.flags = p.flags ∧ ∀ c ∈ q.constraints, c ∈ p.constraints) :
      q.FlagHolds (ms ++ p.moments []) target := by
    rw [Problem.moments, List.append_nil]
    exact h.rest quiet
  cases a with
  | change c => exact quiet (c.outcome_quiet p)
  | setSense | configure | setValues => exact quiet (.inr ⟨rfl, fun _ hc => hc⟩)
  | remove kind i =>
    refine quiet (.inr ⟨?_, fun _ hc => (p.without_removal kind i).mem_constraints hc⟩)
    cases kind <;> rfl
  | substitute pass => exact h.substitute grounded pass
  | lower => exact lowered
  | build config =>
    rcases Problem.assembly_problem config p with left | ⟨low, high, bounded⟩
    · rw [perform, left]
      exact lowered
    · refine lowered.rest ?_
      rw [perform, Problem.applyGlobalBounds_ok bounded]
      exact .inr ⟨rfl, fun _ hc => hc⟩

theorem performAll_flagHolds (as : List (Operation α)) {p : Problem α} (reachable : Reachable p) {ms : Moments α}
    {target : Pass} (h : p.FlagHolds ms target) : (performAll as p).FlagHolds (ms ++ moments p as) target := by
  induction as generalizing p ms with
  | nil =>
    rw [moments, List.append_nil]
    exact h
  | cons a as ih =>
    rw [moments, ← List.append_assoc]
    exact ih (reachable.perform a) (a.perform_flagHolds reachable.grounded h)

end Operation

namespace Problem

/-- Whatever was done, the flags of disjunctions and of links are right. A flag of relations or of sets is right unless
the last such pass was followed by one that made relations or sets anew. -/
theorem ofOperations_flags (as : List (Operation α)) :
    let p := ofOperations as
    let ms := Operation.moments .empty as
    (p.flags.disjunctions = true → p.disjunctions = []) ∧ (p.flags.binaryOrs = true → p.binaryOrs = []) ∧
      (p.flags.relations = true →
        (∀ c ∈ p.comparisons, c.relation.isCanonical = true) ∨ ms.Refilled .relations) ∧
      (p.flags.sos1s = true → p.sos1s = [] ∨ ms.Refilled .sos1s) := by
  have start (target : Pass) : (Problem.empty : Problem α).FlagHolds [] target := fun set =>
    absurd ((PassFlags.isSet_none target).symm.trans set) Bool.false_ne_true
  have holds (target : Pass) : (ofOperations as).FlagHolds (Operation.moments .empty as) target :=
    Operation.performAll_flagHolds as .start (start target)
  have unfed {ms : Moments α} {target : Pass} (never : ∀ q pass, ¬Feeding q pass target) : ¬ms.Refilled target :=
    fun ⟨_, found, pass, _, _, feeding, _⟩ => never found pass feeding
  refine ⟨fun set => ?_, fun set => ?_, fun set => ?_, fun set => ?_⟩
  · exact clear_iff.mp ((holds .disjunctions set).resolve_right (unfed fun _ pass => by cases pass <;> exact id))
  · exact clear_iff.mp ((holds .binaryOrs set).resolve_right (unfed fun _ pass => by cases pass <;> exact id))
  · exact (holds .relations set).imp_left clear_iff.mp
  · exact (holds .sos1s set).imp_left clear_iff.mp

/-- Every set flag is right about what is left. -/
structure Truthful (p : Problem α) : Prop where
  disjunctions : p.flags.disjunctions = true → p.disjunctions = []
  relations : p.flags.relations = true → ∀ c ∈ p.comparisons, c.relation.isCanonical = true
  binaryOrs : p.flags.binaryOrs = true → p.binaryOrs = []
  sos1s : p.flags.sos1s = true → p.sos1s = []

/-- A disjunction and a disequality are posted, and then passes run. -/
def posted (passes : List Pass) : List (Operation Rat) :=
  let on (relation : Relation) : Comparison Rat := .ofLinear [.single 1 (.real "x")] relation 1 (1 / 4)
  .change (.intake (.constraints [.disjunction ⟨[on .ge], 1 / 4⟩, .comparison (on .ne)])) :: passes.map .substitute

theorem posted_orderly :
    let p := ofOperations (posted [.disjunctions, .relations, .binaryOrs, .sos1s])
    p.flags = ⟨true, true, true, true⟩ ∧ p.disjunctions = [] ∧ p.binaryOrs = [] ∧
      (∀ c ∈ p.comparisons, c.relation.isCanonical = true) ∧ p.sos1s = [] := by
  intro p
  obtain ⟨disjunctions, binaryOrs, relations, sos1s⟩ :=
    ofOperations_flags (posted [.disjunctions, .relations, .binaryOrs, .sos1s])
  have ms : Operation.moments .empty (posted [.disjunctions, .relations, .binaryOrs, .sos1s]) =
      [(_, .disjunctions)] ++ [(_, .relations)] ++ [(_, .binaryOrs)] ++ [(_, .sos1s)] := rfl
  rw [ms] at relations sos1s
  simp only [Moments.refilled_concat, Feeding, ne_eq, reduceCtorEq, not_true_eq_false, not_false_eq_true, true_and,
    false_and, or_false, false_or, or_self] at relations sos1s
  exact ⟨rfl, disjunctions rfl, binaryOrs rfl, relations rfl, sos1s rfl⟩

/-- Passes that run ahead of those that feed them leave flags that are wrong later. -/
theorem posted_early :
    let p := ofOperations (posted [.relations, .sos1s, .disjunctions])
    let q := ofOperations (posted [.sos1s, .relations])
    ¬p.Truthful ∧ ¬q.Truthful ∧ p.flags.relations = true ∧ (∃ c ∈ p.comparisons, c.relation.isCanonical = false) ∧
      p.flags.sos1s = true ∧ p.sos1s ≠ [] ∧ q.flags.sos1s = true ∧ q.sos1s ≠ [] := by
  intro p q
  have left : p.sos1s ≠ [] := List.cons_ne_nil _ _
  have made : q.sos1s ≠ [] := List.cons_ne_nil _ _
  have strict : p.comparisons.any (!·.relation.isCanonical) = true := rfl
  refine ⟨fun truthful => left (truthful.sos1s rfl), fun truthful => made (truthful.sos1s rfl), rfl, ?_, rfl, left,
    rfl, made⟩
  simpa only [List.any_eq_true, Bool.not_eq_true'] using strict

end Problem

end MixedInteger
