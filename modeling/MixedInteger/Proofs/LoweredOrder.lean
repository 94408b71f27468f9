import MixedInteger.Proofs.FixedPoint
import MixedInteger.Proofs.LoweredSize
import MixedInteger.Proofs.SteadyNames

/-!
The order of lowered rows. Every pass appends what it makes, so the comparisons of a lowered problem can be written
down: what was kept, then what each kind of constraint turned into, with names drawn from one supply all along.
-/

namespace MixedInteger

variable {α : Type}

namespace Constraint

def comparison? : Constraint α → Option (Comparison α)
  | comparison c => some c
  | _ => none

def sos1? : Constraint α → Option (Sos1 α)
  | sos1 s => some s
  | _ => none

def binaryOr? : Constraint α → Option (BinaryOr α)
  | binaryOr b => some b
  | _ => none

end Constraint

/-- The comparisons among some constraints, in order. -/
def comparisonsOf (cs : List (Constraint α)) : List (Comparison α) := cs.filterMap (·.comparison?)

def sos1sOf (cs : List (Constraint α)) : List (Sos1 α) := cs.filterMap (·.sos1?)

theorem comparisonsOf_comparisons (cs : List (Comparison α)) : comparisonsOf (cs.map .comparison) = cs := by
  rw [comparisonsOf, List.filterMap_map]
  exact List.filterMap_some

theorem sos1sOf_comparisons (cs : List (Comparison α)) : sos1sOf (cs.map .comparison) = [] := by
  rw [sos1sOf, List.filterMap_map]
  exact List.filterMap_eq_nil_iff.mpr fun _ _ => rfl

namespace Problem

/-- What is stored is stored at the end of its kind. -/
theorem insertProduced_kinds (p : Problem α) (cs : List (Constraint α)) :
    let q := cs.foldl insertProduced p
    q.comparisons = p.comparisons ++ comparisonsOf cs ∧ q.sos1s = p.sos1s ++ sos1sOf cs ∧
      q.binaryOrs = p.binaryOrs ++ cs.filterMap (·.binaryOr?) := by
  induction cs generalizing p with
  | nil => simp [comparisonsOf, sos1sOf]
  | cons c cs ih =>
    obtain ⟨comparisons, sos1s, binaryOrs⟩ := ih (p.insertProduced c)
    simp only [List.foldl_cons, comparisons, sos1s, binaryOrs]
    cases c <;>
      simp [insertProduced, push, comparisonsOf, sos1sOf, Constraint.comparison?, Constraint.sos1?,
        Constraint.binaryOr?]

variable [Scalar α]

theorem substitute_kinds (p : Problem α) (pass : Pass) :
    let r := p.replacement pass
    let q := (p.substitute pass).1
    q.comparisons = r.rest.comparisons ++ comparisonsOf r.produced ∧ q.sos1s = r.rest.sos1s ++ sos1sOf r.produced ∧
      q.binaryOrs = r.rest.binaryOrs ++ r.produced.filterMap (·.binaryOr?) ∧
      q.nextAuxiliary = r.rest.nextAuxiliary := by
  obtain ⟨comparisons, sos1s, binaryOrs⟩ :=
    (p.replacement pass).rest.insertProduced_kinds (p.replacement pass).produced
  obtain ⟨-, -, -, -, -, next⟩ := (p.replacement pass).rest.insertProduced_fold (p.replacement pass).produced
  exact ⟨comparisons, sos1s, binaryOrs, next⟩

end Problem

variable [Scalar α]

section Links

variable {bigM : α}

/-- No lowering makes a link. -/
theorem Lowering.no_binaryOr {c : Constraint α} {vs : List (Variable α)} {rows : List (Constraint α)}
    (h : Lowering bigM c vs rows) : rows.filterMap (·.binaryOr?) = [] := by
  refine List.filterMap_eq_nil_iff.mpr fun r hr => ?_
  cases r with
  | binaryOr b =>
    obtain ⟨pass, -, feeds⟩ := h.left_to _ hr .binaryOrs rfl
    cases feeds
  | comparison | sos1 | disjunction => rfl

theorem Disjunction.lower_no_binaryOr (d : Disjunction α) (s : NameSupply) :
    (d.lower bigM s).1.filterMap (·.binaryOr?) = [] := by
  obtain ⟨ks, t, choices, lowered, -⟩ := d.lower_draws bigM s
  rw [lowered]
  exact (Lowering.disjunction d ks choices).no_binaryOr

theorem Comparison.lower_no_binaryOr (c : Comparison α) (s : NameSupply) :
    (c.lower bigM s).1.filterMap (·.binaryOr?) = [] := by
  cases canonical : c.relation.isCanonical with
  | true =>
    have none : (c.lower bigM : Naming _) = pure [] := by
      unfold lower
      cases hr : c.relation <;> simp_all [Relation.isCanonical]
    rw [none]
    rfl
  | false =>
    obtain ⟨vs, rows, t, lowering, lowered, -⟩ := c.lower_draws bigM s canonical
    rw [lowered]
    exact lowering.no_binaryOr

end Links

omit [Scalar α] in
theorem Naming.mapM_no_binaryOr {β : Type} {f : β → Naming (List (Constraint α))}
    (none : ∀ b s, (f b s).1.filterMap (·.binaryOr?) = []) (bs : List β) (s : NameSupply) :
    (bs.mapM f s).1.flatten.filterMap (·.binaryOr?) = [] := by
  have answers := NameSource.mapM_answers f bs s
  generalize (bs.mapM f s).1 = rows at answers
  induction answers with
  | nil => rfl
  | cons answer _ ih =>
    obtain ⟨t, rfl⟩ := answer
    rw [List.flatten_cons, List.filterMap_append, none, ih]
    rfl

namespace Problem.Grounded

variable {p : Problem α} {s t : NameSupply}

/-- One pass, seen as drawing from any supply that goes on as the problem's own does; so for each of them. -/
theorem disjunctions_order (h : p.Grounded) (alike : p.supply.Alike s) {split : List (List (Constraint α))}
    (splitting : p.disjunctions.mapM (·.lower p.policy.bigM) s = (split, t)) :
    let q := (p.substitute .disjunctions).1
    q.supply.Alike t ∧ q.comparisons = p.comparisons ++ comparisonsOf split.flatten ∧
      q.sos1s = p.sos1s ++ sos1sOf split.flatten ∧ q.binaryOrs = p.binaryOrs := by
  intro q
  have steady : Naming.Steady (p.disjunctions.mapM (·.lower p.policy.bigM)) := .mapM (fun d => d.lower_steady _) _
  obtain ⟨comparisons, sos1s, binaryOrs, next⟩ := p.substitute_kinds .disjunctions
  obtain ⟨drawn, onward⟩ := h.supply_drawn .disjunctions steady next alike splitting
  have none : split.flatten.filterMap (·.binaryOr?) = [] :=
    drawn ▸ Naming.mapM_no_binaryOr (fun d => d.lower_no_binaryOr) _ p.supply
  have produced : (p.replacement .disjunctions).produced = split.flatten := congrArg List.flatten drawn
  rw [produced] at comparisons sos1s binaryOrs
  rw [none, List.append_nil] at binaryOrs
  exact ⟨onward, comparisons, sos1s, binaryOrs⟩

theorem relations_order (h : p.Grounded) (alike : p.supply.Alike s) {moved : List (List (Constraint α))}
    (moving : (p.comparisons.filter (!·.relation.isCanonical)).mapM (·.lower p.policy.bigM) s = (moved, t)) :
    let q := (p.substitute .relations).1
    q.supply.Alike t ∧
      q.comparisons = p.comparisons.filter (·.relation.isCanonical) ++ comparisonsOf moved.flatten ∧
      q.sos1s = p.sos1s ++ sos1sOf moved.flatten ∧ q.binaryOrs = p.binaryOrs := by
  intro q
  have steady : Naming.Steady ((p.comparisons.filter (!·.relation.isCanonical)).mapM (·.lower p.policy.bigM)) :=
    .mapM (fun c => c.lower_steady _) _
  obtain ⟨comparisons, sos1s, binaryOrs, next⟩ := p.substitute_kinds .relations
  simp only [p.replacement_relations, p.draw_supply] at comparisons sos1s binaryOrs next
  obtain ⟨drawn, onward⟩ := h.supply_drawn .relations steady next alike moving
  have none : moved.flatten.filterMap (·.binaryOr?) = [] :=
    drawn ▸ Naming.mapM_no_binaryOr (fun c => c.lower_no_binaryOr) _ p.supply
  rw [drawn] at comparisons sos1s binaryOrs
  rw [none, List.append_nil] at binaryOrs
  exact ⟨onward, comparisons, sos1s, binaryOrs⟩

theorem binaryOrs_order (h : p.Grounded) (alike : p.supply.Alike s) :
    let q := (p.substitute .binaryOrs).1
    q.supply.Alike s ∧ q.comparisons = p.comparisons ++ p.binaryOrs.flatMap BinaryOr.lower ∧ q.sos1s = p.sos1s := by
  intro q
  obtain ⟨comparisons, sos1s, -, next⟩ := p.substitute_kinds .binaryOrs
  refine ⟨(h.supply_drawn .binaryOrs (.pure ()) next alike rfl).2, comparisons.trans ?_, sos1s.trans ?_⟩
  · exact congrArg _ (comparisonsOf_comparisons _)
  · exact (congrArg _ (sos1sOf_comparisons _)).trans (List.append_nil _)

theorem sos1s_order (h : p.Grounded) (alike : p.supply.Alike s) {switched : List (List (Comparison α))}
    (switching : p.sos1s.mapM Sos1.lower s = (switched, t)) :
    let q := (p.substitute .sos1s).1
    q.supply.Alike t ∧ q.comparisons = p.comparisons ++ switched.flatten := by
  intro q
  have steady : Naming.Steady (p.sos1s.mapM Sos1.lower) := .mapM (fun s => s.lower_steady) _
  obtain ⟨comparisons, -, -, next⟩ := p.substitute_kinds .sos1s
  obtain ⟨drawn, onward⟩ := h.supply_drawn .sos1s steady next alike switching
  have produced : (p.replacement .sos1s).produced = switched.flatten.map .comparison :=
    congrArg (fun rows => (List.flatten rows).map Constraint.comparison) drawn
  rw [produced, comparisonsOf_comparisons] at comparisons
  exact ⟨onward, comparisons⟩

end Problem.Grounded

/-- A strict comparison is answered by a single canonical one, which differs in its relation and its right-hand side. -/
def Comparison.Moves (c : Comparison α) (rows : List (Constraint α)) : Prop :=
  c.relation = .lt ∨ c.relation = .gt → ∃ c' : Comparison α, rows = [.comparison c'] ∧
    c'.relation.isCanonical = true ∧ c' = { c with relation := c'.relation, rhs := c'.rhs }

theorem Comparison.lower_moves (c : Comparison α) (bigM : α) (s : NameSupply) : c.Moves (c.lower bigM s).1 := by
  unfold lower
  rintro (strict | strict)
  all_goals
    rw [strict]
    exact ⟨_, rfl, rfl, rfl⟩

/-- Lowering keeps every canonical comparison where it was, and after those come, each in its order, the rows of the
disjunctions, of the other relations, of the links and of the sets, with their names drawn one after the other. -/
theorem Reachable.lower_order {p : Problem α} (reachable : Reachable p) (sos1s : p.policy.keepsSos1 = false)
    (links : p.policy.keepsBinaryOr = false) :
    ∃ (split moved : List (List (Constraint α))) (switched : List (List (Comparison α))) (s t u : NameSupply),
      let others := (p.comparisons ++ comparisonsOf split.flatten).filter (!·.relation.isCanonical)
      p.disjunctions.mapM (·.lower p.policy.bigM) p.supply = (split, s) ∧
      others.mapM (·.lower p.policy.bigM) s = (moved, t) ∧
      (p.sos1s ++ sos1sOf split.flatten ++ sos1sOf moved.flatten).mapM Sos1.lower t = (switched, u) ∧
      p.lower.1.comparisons =
        p.comparisons.filter (·.relation.isCanonical) ++
          (comparisonsOf split.flatten).filter (·.relation.isCanonical) ++ comparisonsOf moved.flatten ++
          p.binaryOrs.flatMap BinaryOr.lower ++ switched.flatten ∧
      List.Forall₂ Comparison.Moves others moved ∧ p.lower.1.nextAuxiliary = u.next ∧
      p.lower.1.sense = p.sense ∧ p.lower.1.policy = p.policy ∧
      p.lower.1.objective = p.objective.map Expression.expand := by
  let a := (p.substitute .disjunctions).1
  let b := (a.substitute .relations).1
  let c := (b.substitute .binaryOrs).1
  let d := (c.substitute .sos1s).1
  have lowered : p.lower.1 = d.expandObjective := by
    rw [p.lower_after, LoweringPolicy.passes, sos1s, links]
    rfl
  have policyA : a.policy = p.policy := (p.after_frame [.disjunctions]).2.2
  have groundedA : a.Grounded := (reachable.grounded.after [.disjunctions]).1
  have groundedB : b.Grounded := (groundedA.after [.relations]).1
  have groundedC : c.Grounded := (groundedB.after [.binaryOrs]).1
  obtain ⟨split, s, splitting⟩ : ∃ split s, p.disjunctions.mapM (·.lower p.policy.bigM) p.supply = (split, s) :=
    ⟨_, _, rfl⟩
  obtain ⟨alikeA, comparisonsA, sos1sA, binaryOrsA⟩ := reachable.grounded.disjunctions_order (.refl _) splitting
  let others := (p.comparisons ++ comparisonsOf split.flatten).filter (!·.relation.isCanonical)
  obtain ⟨moved, t, moving⟩ : ∃ moved t, others.mapM (·.lower p.policy.bigM) s = (moved, t) := ⟨_, _, rfl⟩
  obtain ⟨alikeB, comparisonsB, sos1sB, binaryOrsB⟩ := groundedA.relations_order alikeA (by
    rw [comparisonsA, policyA]
    exact moving)
  obtain ⟨alikeC, comparisonsC, sos1sC⟩ := groundedB.binaryOrs_order alikeB
  let sets := p.sos1s ++ sos1sOf split.flatten ++ sos1sOf moved.flatten
  obtain ⟨switched, u, switching⟩ : ∃ switched u, sets.mapM Sos1.lower t = (switched, u) := ⟨_, _, rfl⟩
  obtain ⟨alikeD, comparisonsD⟩ := groundedC.sos1s_order alikeC (by
    rw [sos1sC, sos1sB, sos1sA]
    exact switching)
  have comparisons : d.comparisons = p.comparisons.filter (·.relation.isCanonical) ++
      (comparisonsOf split.flatten).filter (·.relation.isCanonical) ++ comparisonsOf moved.flatten ++
      p.binaryOrs.flatMap BinaryOr.lower ++ switched.flatten := by
    rw [comparisonsD, comparisonsC, comparisonsB, comparisonsA, binaryOrsB, binaryOrsA, List.filter_append]
  have moves := NameSource.mapM_answers (·.lower p.policy.bigM) others s
  rw [moving] at moves
  refine ⟨split, moved, switched, s, t, u, splitting, moving, switching, ?_, ?_, ?_, ?_⟩
  · have expanded (q : Problem α) : q.expandObjective.comparisons = q.comparisons := rfl
    rw [lowered, expanded, comparisons]
  · refine moves.imp fun c rows answered => ?_
    obtain ⟨t, rfl⟩ := answered
    exact c.lower_moves p.policy.bigM t
  · exact (congrArg Problem.nextAuxiliary lowered).trans alikeD.next
  · exact ⟨p.lower_objective.2, p.lower_policy, p.lower_objective.1⟩

theorem Problem.assorted_order :
    let strict : Comparison Rat := .ofLinear [.single 1 (.real "x")] .lt 2 (1 / 4)
    Reachable assorted ∧ strict ∈ assorted.comparisons ∧ ∃ row ∈ assorted.lower.1.comparisons,
      row.relation.isCanonical = true ∧ row = { strict with relation := row.relation, rhs := row.rhs } := by
  intro strict
  have reachable : Reachable assorted :=
    .step .start (.posted (rfl : Problem.empty.addAll Constraint.assorted = .ok assorted))
  refine ⟨reachable, .head _, ?_⟩
  obtain ⟨split, moved, switched, s, t, u, -, -, -, comparisons, moves, -⟩ := reachable.lower_order rfl rfl
  cases moves with
  | cons move _ =>
    obtain ⟨row, rfl, canonical, same⟩ := move (.inl rfl)
    refine ⟨row, ?_, canonical, same⟩
    simp [comparisons, comparisonsOf, Constraint.comparison?]

end MixedInteger
